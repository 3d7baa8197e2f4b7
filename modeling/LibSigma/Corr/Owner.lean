import LibSigma.Library.Buffer
import LibSigma.Corr.Wire

/-!
# The owner of a group

`corr_owner_index` hashes the routing key piece by piece, `corr_owner_key` renders it into a buffer,
and `owner_key_json` computes how long it is.

Three functions walk over the same pieces: the correlation id, then a tab and a value for each group
field, with an empty value for one that is missing. Their agreement is what lets a peer that reads a
message decide the same as the peer that wrote it. One list of bytes stands for all three,
`ownerKey`: djb2 of the pieces is djb2 of this list, the rendered bytes are this list with a
terminator, and the computed length is its length.

## Memory

`corr_owner_key` is also proved as what it does to memory. The buffer is at the start of a larger
piece of memory, and `WritesKey` says what a function that writes a key into `cap` bytes may do: it
changes nothing beyond them; with room for the key and its terminator it writes both and returns the
length; without, it returns that there was no room. In the second case what it has written is a part
of the key, and it is in the buffer.

* `djb2_ownerKey`: the pieces hash like the key.
* `ownerKeyMem_spec`: **what `corr_owner_key` does to the memory around its buffer.**
* `ownerKeyLen_exact`: the computed length.
* `owner_key_agrees`: **the three agree.**
-/

namespace LibSigma

open Library

/-! ## Hashing -/

/-- djb2 of some bytes. -/
def djb2 (bytes : List UInt8) : UInt32 := bytes.foldl (fun h b => h * 33 + b.toUInt32) 5381

/-- `corr_djb2_feed`. -/
def corrDjb2Feed (h : UInt32) : Option CStr → UInt32
  | none => h
  | some s => s.foldl (fun h b => ((h <<< 5) + h) + b.toUInt32) h

/-- `corr_fmix32`. -/
def corrFmix32 (h : UInt32) : UInt32 :=
  let h := h ^^^ (h >>> 16)
  let h := h * 0x85ebca6b
  let h := h ^^^ (h >>> 13)
  let h := h * 0xc2b2ae35
  h ^^^ (h >>> 16)

/-- The hash of `corr_owner_index`. -/
def corrOwnerHash (corrId : Option CStr) (groupVals : List (Option CStr)) : UInt32 :=
  groupVals.foldl (fun h v => corrDjb2Feed (((h <<< 5) + h) + 9) (some (v.getD [])))
    (corrDjb2Feed 5381 (some (corrId.getD [])))

/-- `corr_owner_index`. -/
def corrOwnerIndex (corrId : Option CStr) (groupVals : List (Option CStr)) (nPeers : ℕ) : ℕ :=
  if nPeers = 0 then 0
  else (corrFmix32 (corrOwnerHash corrId groupVals) % UInt32.ofNat nPeers).toNat

/-- A shift by five and an addition multiply by 33. -/
theorem shl_five_add (h : UInt32) : (h <<< 5) + h = h * 33 := by
  refine UInt32.toNat_inj.mp ?_
  rw [UInt32.toNat_add, UInt32.toNat_mul, UInt32.toNat_shiftLeft, Nat.shiftLeft_eq]
  show (h.toNat * 2 ^ 5 % 2 ^ 32 + h.toNat) % 2 ^ 32 = h.toNat * 33 % 2 ^ 32
  omega

theorem corrDjb2Feed_some (h : UInt32) (s : CStr) :
    corrDjb2Feed h (some s) = s.foldl (fun h b => h * 33 + b.toUInt32) h := by
  simp only [corrDjb2Feed, shl_five_add]

/-- **The pieces hash like the key.** -/
theorem djb2_ownerKey (corrId : Option CStr) (groupVals : List (Option CStr)) :
    corrOwnerHash corrId groupVals = djb2 (ownerKey (corrId.getD []) groupVals) := by
  have hvals : ∀ (vals : List (Option CStr)) (h : UInt32),
      vals.foldl (fun h v => corrDjb2Feed (((h <<< 5) + h) + 9) (some (v.getD []))) h =
        (vals.flatMap fun v => 9 :: v.getD []).foldl (fun h b => h * 33 + b.toUInt32) h := by
    intro vals
    induction vals with
    | nil => exact fun _ => rfl
    | cons v vals ih =>
      intro h
      rw [List.foldl_cons, ih, List.flatMap_cons, List.foldl_append, List.foldl_cons,
        corrDjb2Feed_some, shl_five_add]
      rfl
  rw [corrOwnerHash, hvals, corrDjb2Feed_some, djb2, ownerKey, List.foldl_append]

/-! ## Rendering -/

/-- The loop of `corr_owner_key` on memory, the buffer at its start: the group values from position
`n` on, then the terminator. -/
def ownerKeyMemLoop (cap : ℕ) : List UInt8 → ℕ → List (Option CStr) → List UInt8 × ℕ
  | mem, n, [] => (poke mem n [0], n)
  | mem, n, v :: vals =>
    if cap < n + 1 + (v.getD []).length + 1 then (mem, 0)
    else
      ownerKeyMemLoop cap (poke (poke mem n [9]) (n + 1) (v.getD [])) (n + 1 + (v.getD []).length) vals

/-- `corr_owner_key` on memory, the buffer at its start; it returns the length. -/
def ownerKeyMem (mem : List UInt8) (cap : ℕ) (corrId : Option CStr)
    (groupVals : List (Option CStr)) : List UInt8 × ℕ :=
  if cap = 0 then (mem, 0)
  else if cap < (corrId.getD []).length + 1 then (mem, 0)
  else ownerKeyMemLoop cap (poke mem 0 (corrId.getD [])) (corrId.getD []).length groupVals

/-- What a function that writes a key into `cap` bytes does to memory: nothing beyond them; the key
and its terminator, if there is room, with the length of the key for result; else 0 for result. -/
structure WritesKey (mem : List UInt8) (cap : ℕ) (key : CStr) (p : List UInt8 × ℕ) : Prop where
  length : p.1.length = mem.length
  beyond : p.1.drop cap = mem.drop cap
  fits : key.length + 1 ≤ cap → p.2 = key.length ∧ p.1.take (key.length + 1) = key ++ [0]
  short : cap < key.length + 1 → p.2 = 0

section Mem

variable {mem : List UInt8} {cap n : ℕ} {bs : List UInt8}

/-- Bytes are written behind others. -/
theorem take_poke (h : n + bs.length ≤ mem.length) :
    (poke mem n bs).take (n + bs.length) = mem.take n ++ bs := by
  have hlen : (mem.take n ++ bs).length = n + bs.length := by
    rw [List.length_append, List.length_take, Nat.min_eq_left (by omega)]
  rw [poke, ← hlen, List.take_left]

/-- Bytes within the buffer leave what is beyond. -/
theorem drop_poke (h : n + bs.length ≤ cap) (hcap : cap ≤ mem.length) :
    (poke mem n bs).drop cap = mem.drop cap := by
  have hlen : (mem.take n ++ bs).length = n + bs.length := by
    rw [List.length_append, List.length_take, Nat.min_eq_left (by omega)]
  obtain ⟨k, rfl⟩ := Nat.exists_eq_add_of_le h
  rw [poke, ← hlen, List.drop_length_add_append, List.drop_drop, hlen]

/-- A tab and a value are written as one piece. -/
theorem poke_tab (hcap : cap ≤ mem.length) {v : CStr} (hroom : n + 1 + v.length + 1 ≤ cap) :
    poke (poke mem n [9]) (n + 1) v = poke mem n (9 :: v) := by
  have hadj : poke (poke mem n [9]) (n + [(9 : UInt8)].length) v = poke mem n ([9] ++ v) := by
    apply poke_poke_adjacent
    rw [List.length_singleton]
    omega
  exact hadj

end Mem

theorem ownerKeyMemLoop_spec {cap : ℕ} (vals : List (Option CStr)) {mem : List UInt8} {n : ℕ}
    (hcap : cap ≤ mem.length) (hn : n < cap) :
    WritesKey mem cap (ownerKey (mem.take n) vals) (ownerKeyMemLoop cap mem n vals) := by
  induction vals generalizing mem n with
  | nil =>
    have hlen : (mem.take n).length = n := by
      rw [List.length_take, Nat.min_eq_left (by omega)]
    have hpoke : n + [(0 : UInt8)].length ≤ mem.length := by
      rw [List.length_singleton]
      omega
    rw [ownerKeyMemLoop, ownerKey, List.flatMap_nil, List.append_nil]
    refine ⟨length_poke hpoke, drop_poke hn hcap, fun _ => ⟨hlen.symm, ?_⟩, fun hshort => ?_⟩
    · rw [hlen]
      exact take_poke hpoke
    · rw [hlen] at hshort
      omega
  | cons v vals ih =>
    have hkey : (ownerKey (mem.take n) (v :: vals)).length =
        n + 1 + (v.getD []).length + (vals.flatMap fun v => 9 :: v.getD []).length := by
      rw [ownerKey, List.flatMap_cons, List.length_append, List.length_append, List.length_cons,
        List.length_take, Nat.min_eq_left (by omega)]
      omega
    rw [ownerKeyMemLoop]
    by_cases hroom : cap < n + 1 + (v.getD []).length + 1
    · rw [if_pos hroom]
      exact ⟨rfl, rfl, fun hfits => by omega, fun _ => rfl⟩
    · have hpiece : n + (9 :: v.getD []).length ≤ mem.length := by
        rw [List.length_cons]
        omega
      rw [if_neg hroom, poke_tab hcap (not_lt.mp hroom)]
      have hlen := length_poke hpiece
      have hcap' : cap ≤ (poke mem n (9 :: v.getD [])).length := hlen ▸ hcap
      have hroom' : n + 1 + (v.getD []).length < cap := by omega
      have hrest := ih hcap' hroom'
      have htake : (poke mem n (9 :: v.getD [])).take (n + 1 + (v.getD []).length) =
          mem.take n ++ 9 :: v.getD [] := by
        rw [← take_poke hpiece, List.length_cons]
        congr 1
        omega
      rw [htake, ownerKey_cons] at hrest
      refine ⟨hrest.length.trans hlen, hrest.beyond.trans (drop_poke ?_ hcap), hrest.fits,
        hrest.short⟩
      rw [List.length_cons]
      omega

/-- **What `corr_owner_key` does to memory.** -/
theorem ownerKeyMem_spec {mem : List UInt8} {cap : ℕ} (hpos : 0 < cap) (hcap : cap ≤ mem.length)
    (corrId : Option CStr) (vals : List (Option CStr)) :
    WritesKey mem cap (ownerKey (corrId.getD []) vals) (ownerKeyMem mem cap corrId vals) := by
  rw [ownerKeyMem, if_neg hpos.ne']
  by_cases hroom : cap < (corrId.getD []).length + 1
  · have hkey : (corrId.getD []).length ≤ (ownerKey (corrId.getD []) vals).length := by
      rw [ownerKey, List.length_append]
      omega
    rw [if_pos hroom]
    exact ⟨rfl, rfl, fun hfits => by omega, fun _ => rfl⟩
  · have hpiece : 0 + (corrId.getD []).length ≤ mem.length := by omega
    have hlen := length_poke hpiece
    have htake := take_poke hpiece
    rw [Nat.zero_add, List.take_zero, List.nil_append] at htake
    rw [if_neg hroom]
    have hcap' : cap ≤ (poke mem 0 (corrId.getD [])).length := hlen ▸ hcap
    have hloop := ownerKeyMemLoop_spec vals hcap' (not_lt.mp hroom)
    rw [htake] at hloop
    exact ⟨hloop.length.trans hlen, hloop.beyond.trans (drop_poke (by omega) hcap), hloop.fits,
      hloop.short⟩

/-! ## What the encoder sees -/

/-- The loop on bytes stops for a key that does not fit. -/
theorem ownerKeyLoop_eq_none {cap : ℕ} {buf : CStr} {vals : List (Option CStr)}
    (hbuf : buf.length < cap) (h : cap ≤ (ownerKey buf vals).length) :
    ownerKeyLoop cap buf vals = none := by
  induction vals generalizing buf with
  | nil =>
    rw [ownerKey, List.flatMap_nil, List.append_nil] at h
    omega
  | cons v vals ih =>
    rw [ownerKeyLoop]
    by_cases hroom : cap < buf.length + 1 + (v.getD []).length + 1
    · rw [if_pos hroom]
    · rw [if_neg hroom]
      apply ih
      · rw [List.length_append, List.length_cons]
        omega
      · rwa [ownerKey_cons]

/-- `corr_owner_key` on bytes, as the encoder calls it: the key, if there is room. -/
theorem corrOwnerKey_eq {cap : ℕ} (hpos : 0 < cap) (corrId : Option CStr)
    (vals : List (Option CStr)) :
    corrOwnerKey cap corrId vals =
      if (ownerKey (corrId.getD []) vals).length < cap then some (ownerKey (corrId.getD []) vals)
      else none := by
  have hid : (corrId.getD []).length ≤ (ownerKey (corrId.getD []) vals).length := by
    rw [ownerKey, List.length_append]
    omega
  rw [corrOwnerKey, if_neg hpos.ne']
  by_cases hroom : cap < (corrId.getD []).length + 1
  · rw [if_pos hroom, if_neg (by omega)]
  · rw [if_neg hroom]
    by_cases hkey : (ownerKey (corrId.getD []) vals).length < cap
    · rw [if_pos hkey, ownerKeyLoop_eq hkey]
    · rw [if_neg hkey, ownerKeyLoop_eq_none (not_lt.mp hroom) (not_lt.mp hkey)]

/-- The bytes the encoder works with are those in memory. -/
theorem ownerKeyMem_of_corrOwnerKey {mem : List UInt8} {cap : ℕ} (hpos : 0 < cap)
    (hcap : cap ≤ mem.length) {corrId : Option CStr} {vals : List (Option CStr)} {key : CStr}
    (h : corrOwnerKey cap corrId vals = some key) :
    (ownerKeyMem mem cap corrId vals).2 = key.length ∧
      (ownerKeyMem mem cap corrId vals).1.take (key.length + 1) = key ++ [0] := by
  rw [corrOwnerKey_eq hpos] at h
  by_cases hkey : (ownerKey (corrId.getD []) vals).length < cap
  · rw [if_pos hkey] at h
    rw [← Option.some.inj h]
    exact (ownerKeyMem_spec hpos hcap corrId vals).fits hkey
  · rw [if_neg hkey] at h
    cases h

/-! ## Agreement -/

/-- The computed length is that of the key. -/
theorem ownerKeyLen_exact {corrId : CStr} {vals : List (Option CStr)} {len : ℕ}
    (h : ownerKeyLen corrId vals = some len) : len = (ownerKey corrId vals).length := by
  rw [ownerKeyLen] at h
  induction vals generalizing corrId with
  | nil =>
    rw [List.foldlM_nil] at h
    rw [ownerKey, List.flatMap_nil, List.append_nil]
    exact (Option.some.inj h).symm
  | cons v vals ih =>
    rw [List.foldlM_cons] at h
    obtain ⟨len', hstep, hrest⟩ := Option.bind_eq_some_iff.mp h
    split at hstep
    · exact absurd hstep (Option.some_ne_none _).symm
    · rw [← ownerKey_cons]
      apply ih
      rw [← hrest, ← Option.some.inj hstep, List.length_append, List.length_cons]
      congr 1
      omega

/-- **Routing key and owner agree**: the owner is that of the rendered key; the key is rendered whole
with its terminator exactly if there is room for both, and never past the buffer; and the length that
is computed for it, for any key that has one, leaves no byte and lacks none. -/
theorem owner_key_agrees (corrId : Option CStr) (groupVals : List (Option CStr)) :
    (∀ nPeers, 1 ≤ nPeers → nPeers ≤ 2 ^ 32 - 1 → corrOwnerIndex corrId groupVals nPeers =
      (corrFmix32 (djb2 (ownerKey (corrId.getD []) groupVals))).toNat % nPeers) ∧
    (∀ mem cap, 0 < cap → cap ≤ mem.length →
      WritesKey mem cap (ownerKey (corrId.getD []) groupVals)
        (ownerKeyMem mem cap corrId groupVals)) ∧
    (∀ len, ownerKeyLen (corrId.getD []) groupVals = some len →
      len + 1 = (ownerKey (corrId.getD []) groupVals ++ [0]).length) ∧
    ((ownerKey (corrId.getD []) groupVals).length ≤ sizeMax - 2 →
      (ownerKeyLen (corrId.getD []) groupVals).isSome) := by
  refine ⟨fun nPeers hpos hle => ?_, fun mem cap hpos hcap => ?_, fun len hlen => ?_,
    fun hlen => ?_⟩
  · rw [corrOwnerIndex, if_neg (by omega), djb2_ownerKey, UInt32.toNat_mod, UInt32.toNat_ofNat',
      Nat.mod_eq_of_lt (by omega : nPeers < 2 ^ 32)]
  · exact ownerKeyMem_spec hpos hcap corrId groupVals
  · rw [List.length_append, List.length_singleton, ← ownerKeyLen_exact hlen]
  · rw [ownerKeyLen_eq hlen]
    rfl

/-- The owner of a group among seven peers, and its key in a buffer of its length. -/
theorem owner_key_agrees_sample :
    corrOwnerIndex (some (cstr "brute")) [some (cstr "10.0.0.1"), none] 7 = 5 ∧
    (ownerKeyMem (List.replicate 20 1) 16 (some (cstr "brute")) [some (cstr "10.0.0.1"), none]).2
      = 15 ∧
    (ownerKeyLen (cstr "brute") [some (cstr "10.0.0.1"), none]).isSome := by
  obtain ⟨howner, hmem, -, hlen⟩ :=
    owner_key_agrees (some (cstr "brute")) [some (cstr "10.0.0.1"), none]
  refine ⟨(howner 7 (by decide) (by decide)).trans (by decide +kernel), ?_, hlen (by decide)⟩
  exact ((hmem (List.replicate 20 1) 16 (by decide) (by decide)).fits (by decide)).1

end LibSigma
