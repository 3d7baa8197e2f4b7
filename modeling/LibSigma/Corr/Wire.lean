import LibSigma.Corr.Engine
import LibSigma.Library.Json

/-!
# Contributions on the wire

`contrib_wire.c`: a contribution as a JSON object, and back.  The memory for the object and its key
is taken to be there.

## The JSON library

The library is a parameter, `JsonLib`: the getters that the decoder calls, on any value.
`JsonLib.Exact` is what they promise on values in range, `JsonLib.OutOfRange` what they do to values
out of range. Two of the latter matter. A string is handed over as a `const char *`, so that a NUL
ends it, although the value knows its length. And an integer beyond 64 bits is clamped. JSON
integers here have any size.

## What decoding may lose

The decoder looks at each member on its own and treats most of them as optional. `Represents` says,
member by member, that a contribution says all that an object says. Four things can go wrong with an
object that is accepted: a count that does not fit 32 bits is cast to them, a group with more values
than the caller has slots is cut, a string ends at a NUL, and a mask is clamped. Conversely an
object with none of these is decoded whole, and so the result is an equivalence, the header checks
aside: an object that fails those is rejected.

## Round trip

Encoding a contribution gives an object in range, so that decoding it needs `JsonLib.Exact` only.
The strings must be C strings to begin with, and the slots as many as the group values. A count of 0
is sent as 1, as both directions of the code do it. `WireMembers` lists the members that the decoder
reads, so that the proof does not depend on the order in which they were added.

* `contrib_roundtrip`: **what is encoded decodes to the same contribution.**
* `contrib_lossless_iff`: **what is decoded is all of the object exactly when its group fits the
  slots, its count and its mask fit their fields, and no NUL ends one of its strings.**
-/

namespace LibSigma

open Library

/-! ## The routing key

The key is built twice: into a buffer of the caller by `corr_owner_key`, and into memory of its own
by `owner_key_json`, which computes the length first.  Both are translated with their checks against
overflow, in the widths of the source. -/

/-- `SIZE_MAX` and `INT_MAX`. -/
def sizeMax : ℕ := 2 ^ 64 - 1
def intMax : ℕ := 2 ^ 31 - 1

/-- The loop of `corr_owner_key`: what is in the buffer after some group values. -/
def ownerKeyLoop (cap : ℕ) : CStr → List (Option CStr) → Option CStr
  | buf, [] => some buf
  | buf, v :: vals =>
    if cap < buf.length + 1 + (v.getD []).length + 1 then none
    else ownerKeyLoop cap (buf ++ 9 :: v.getD []) vals

/-- `corr_owner_key`: the key, or `none` for a buffer that is too small. -/
def corrOwnerKey (cap : ℕ) (corrId : Option CStr) (groupVals : List (Option CStr)) : Option CStr :=
  if cap = 0 then none
  else if cap < (corrId.getD []).length + 1 then none
  else ownerKeyLoop cap (corrId.getD []) groupVals

/-- The length `owner_key_json` computes, unless it overflows. -/
def ownerKeyLen (corrId : CStr) (groupVals : List (Option CStr)) : Option ℕ :=
  groupVals.foldlM (fun len v =>
    if sizeMax - 2 - len < (v.getD []).length then none else some (len + (1 + (v.getD []).length)))
    corrId.length

/-- `owner_key_json`. -/
def ownerKeyJson (corrId : CStr) (groupVals : List (Option CStr)) : Option Json :=
  match ownerKeyLen corrId groupVals with
  | none => none
  | some len =>
    if intMax < len then none
    else
      match corrOwnerKey (len + 1) (some corrId) groupVals with
      | none => none
      | some key => if key.length ≠ len then none else some (.str key)

/-! ## Encoding -/

/-- `kind_name`. -/
def kindName : Option CorrContribKind → Option CStr
  | some .count => some (cstr "count")
  | some .sum => some (cstr "sum")
  | some .distinct => some (cstr "distinct")
  | some .seen => some (cstr "seen")
  | _ => none

/-- `kind_parse`. -/
def kindParse (s : CStr) : Option CorrContribKind :=
  if s = cstr "count" then some .count
  else if s = cstr "sum" then some .sum
  else if s = cstr "distinct" then some .distinct
  else if s = cstr "seen" then some .seen
  else none

/-- The count of a contribution on the wire: at least one. -/
def wireCount (c : CorrContrib) : Json :=
  .int (if c.count ≠ 0 then c.count else 1).toUInt64.toInt64.toInt

/-- The members every contribution has. -/
def wireCommon (c : CorrContrib) (kn corrId : CStr) (key : Json) : Json :=
  let j := (((Json.obj []).add (cstr "v") (.int 1)).add (cstr "kind") (.str kn)).add
    (cstr "corr_id") (.str corrId)
  let j := (j.add (cstr "ts") (.double c.ts)).add (cstr "group")
    (.arr (c.groupVals.map fun v => .str (v.getD [])))
  j.add (cstr "key") key

/-- The members of its kind. -/
def wirePayload (c : CorrContrib) (j : Json) : Json :=
  let j := if c.kind = some .count then j.add (cstr "count") (wireCount c) else j
  let j :=
    if c.kind = some .sum then
      (j.add (cstr "numeric") (.double c.numeric)).add (cstr "count") (wireCount c)
    else j
  let j := if c.kind = some .seen then j.add (cstr "seen_mask") (.int c.seenMask.toInt64.toInt) else j
  if c.kind = some .distinct then j.addSome (cstr "value") (c.value.map Json.str) else j

/-- The name of the instance, if there is one. -/
def wireOrigin (origin : Option CStr) (j : Json) : Json :=
  if origin.getD [] ≠ [] then j.addSome (cstr "origin") (origin.map Json.str) else j

/-- `corr_contrib_to_json`. -/
def corrContribToJson (c : CorrContrib) (origin : Option CStr) : Option Json :=
  match kindName c.kind, c.corrId with
  | none, _ | _, none | _, some [] => none
  | some kn, some corrId =>
    match ownerKeyJson corrId c.groupVals with
    | none => none
    | some key => some (wireOrigin origin (wirePayload c (wireCommon c kn corrId key)))

/-! ## Decoding

The decoder reads optional members, each through a getter of the library, and narrows what it gets.
It has slots for the group values from its caller and fills no more of them than there are. -/

section Decode

variable (lib : JsonLib)

/-- The checks of `corr_contrib_from_json`: the kind and the correlation of an object. -/
def wireHeader (j : Json) : Option (CorrContribKind × CStr) :=
  match j with
  | .obj _ =>
    match j.get (cstr "v") with
    | some (.int i) =>
      if lib.getInt (.int i) ≠ 1 then none
      else
        match j.get (cstr "kind") with
        | some (.str kn) =>
          match kindParse (lib.getString (.str kn)) with
          | none => none
          | some kind =>
            match j.get (cstr "corr_id") with
            | some (.str id) => some (kind, lib.getString (.str id))
            | _ => none
        | _ => none
    | _ => none
  | _ => none

/-- The elements of the group array, none if there is no array. -/
def groupArray (j : Json) : List Json :=
  match j.get (cstr "group") with
  | some (.arr elems) => elems
  | _ => []

/-- What is put in a slot for an element. -/
def groupSlot : Json → CStr
  | .null => []
  | e => lib.getString e

/-- `corr_contrib_from_json`. -/
def corrContribFromJson (j : Json) (groupSlotsCap : ℕ) : Option CorrContrib :=
  (wireHeader lib j).map fun p =>
    { kind := some p.1
      corrId := some p.2
      rids := []
      groupVals := ((groupArray j).take groupSlotsCap).map fun e => some (groupSlot lib e)
      ts := ((j.get (cstr "ts")).map lib.getDouble).getD 0
      value :=
        match j.get (cstr "value") with
        | some (.str s) => some (lib.getString (.str s))
        | _ => none
      numeric := ((j.get (cstr "numeric")).map lib.getDouble).getD 0
      count := ((j.get (cstr "count")).map fun f => (lib.getInt64 f).toUInt64.toUInt32).getD 0
      seenMask := ((j.get (cstr "seen_mask")).map fun f => (lib.getInt64 f).toUInt64).getD 0 }

end Decode

/-! ## The key fits -/

/-- The bytes of a routing key: the correlation and the group values, each after a tab. -/
def ownerKey (corrId : CStr) (groupVals : List (Option CStr)) : CStr :=
  corrId ++ groupVals.flatMap fun v => 9 :: v.getD []

theorem ownerKey_cons (buf : CStr) (v : Option CStr) (vals : List (Option CStr)) :
    ownerKey (buf ++ 9 :: v.getD []) vals = ownerKey buf (v :: vals) := by
  rw [ownerKey, ownerKey, List.flatMap_cons, List.append_assoc]

/-- The loop writes the key to a buffer that holds it with its terminator. -/
theorem ownerKeyLoop_eq {cap : ℕ} {buf : CStr} {vals : List (Option CStr)}
    (h : (ownerKey buf vals).length < cap) : ownerKeyLoop cap buf vals = some (ownerKey buf vals) := by
  induction vals generalizing buf with
  | nil => rw [ownerKeyLoop, ownerKey, List.flatMap_nil, List.append_nil]
  | cons v vals ih =>
    have hlen : buf.length + 1 + (v.getD []).length + 1 ≤ cap := by
      rw [ownerKey, List.flatMap_cons, List.length_append, List.length_append, List.length_cons] at h
      omega
    rw [ownerKeyLoop, if_neg (not_lt.mpr hlen), ih (by rwa [ownerKey_cons]), ownerKey_cons]

/-- The computed length is that of the key, if it is far from overflow. -/
theorem ownerKeyLen_eq {corrId : CStr} {vals : List (Option CStr)}
    (h : (ownerKey corrId vals).length ≤ sizeMax - 2) :
    ownerKeyLen corrId vals = some (ownerKey corrId vals).length := by
  rw [ownerKeyLen]
  induction vals generalizing corrId with
  | nil => rw [ownerKey, List.flatMap_nil, List.append_nil, List.foldlM_nil]; rfl
  | cons v vals ih =>
    have hnext : ((corrId ++ 9 :: v.getD []).length : ℕ) = corrId.length + (1 + (v.getD []).length) := by
      rw [List.length_append, List.length_cons, Nat.add_comm 1]
    have hroom : ¬ sizeMax - 2 - corrId.length < (v.getD []).length := by
      rw [ownerKey, List.flatMap_cons, List.length_append, List.length_append, List.length_cons] at h
      omega
    rw [List.foldlM_cons, if_neg hroom, ← ownerKey_cons, ← ih (by rwa [ownerKey_cons]), hnext]
    rfl

theorem ownerKeyJson_eq {corrId : CStr} {vals : List (Option CStr)}
    (h : (ownerKey corrId vals).length ≤ intMax) :
    ownerKeyJson corrId vals = some (.str (ownerKey corrId vals)) := by
  have hmax : intMax ≤ sizeMax - 2 := by decide
  have hid : corrId.length ≤ (ownerKey corrId vals).length := by
    rw [ownerKey, List.length_append]
    omega
  have hkey : corrOwnerKey ((ownerKey corrId vals).length + 1) (some corrId) vals =
      some (ownerKey corrId vals) := by
    rw [corrOwnerKey, if_neg (Nat.succ_ne_zero _), Option.getD_some, if_neg (by omega),
      ownerKeyLoop_eq (Nat.lt_succ_self _)]
  rw [ownerKeyJson, ownerKeyLen_eq (h.trans hmax)]
  dsimp only
  rw [if_neg (not_lt.mpr h), hkey]
  exact if_neg fun hne => hne rfl

/-! ## What an object says

`Represents` is the meaning of an object, member by member, without the decoder.  A decoded
contribution can fail to say what the object says in four ways: the group array is longer than the
slots, the count is out of range, a string holds a NUL and is read as a C string, the mask is an
integer of more than 64 bits.  `GettersHold` excludes the last two, which happen inside the library,
and the theorem is that no other way exists. -/

section Lossless

variable {lib : JsonLib} {j : Json} {cap : ℕ} {c : CorrContrib}

variable (lib) in
/-- The bytes an element of the group stands for. -/
def elemText : Json → CStr
  | .null => []
  | .str s => s
  | e => lib.getString e

variable (lib j c) in
/-- A contribution says all that an object says. -/
structure Represents : Prop where
  kind : ∀ s, j.get (cstr "kind") = some (.str s) → c.kind = kindParse s
  corrId : ∀ s, j.get (cstr "corr_id") = some (.str s) → c.corrId = some s
  group : c.groupVals = (groupArray j).map fun e => some (elemText lib e)
  ts : ∀ q, j.get (cstr "ts") = some (.double q) → c.ts = q
  count : ∀ i, j.get (cstr "count") = some (.int i) → (c.count.toNat : ℤ) = i
  numeric : ∀ q, j.get (cstr "numeric") = some (.double q) → c.numeric = q
  -- the encoder writes a mask as a signed number
  seenMask : ∀ i, j.get (cstr "seen_mask") = some (.int i) →
    (c.seenMask.toNat : ℤ) = i ∨ c.seenMask.toInt64.toInt = i
  value : ∀ s, j.get (cstr "value") = some (.str s) → c.value = some s

/-- A count that 32 bits do not hold. -/
def CountOutside (j : Json) : Prop :=
  match j.get (cstr "count") with
  | some (.int i) => i < 0 ∨ 2 ^ 32 - 1 < i
  | some (.double q) => q < 0 ∨ 2 ^ 32 - 1 < q
  | _ => False

variable (j) in
/-- The getters alter nothing of an object: no NUL ends one of its strings, and its mask, if it is an
integer, is one of 64 bits with a sign. -/
structure GettersHold : Prop where
  strings : ∀ name ∈ [cstr "kind", cstr "corr_id", cstr "value"], ∀ s,
    j.get name = some (.str s) → 0 ∉ s
  group : ∀ s, Json.str s ∈ groupArray j → 0 ∉ s
  seenMask : ∀ i, j.get (cstr "seen_mask") = some (.int i) → -2 ^ 63 ≤ i ∧ i < 2 ^ 63

variable (lib j cap) in
/-- An object is decoded without loss, or rejected. -/
structure NotLossy : Prop where
  represents : ∀ c, corrContribFromJson lib j cap = some c → Represents lib j c
  group : cap < (groupArray j).length → corrContribFromJson lib j cap = none
  count : CountOutside j → corrContribFromJson lib j cap = none

theorem groupSlot_eq (h : lib.Exact) {e : Json} (hnul : ∀ s, e = .str s → 0 ∉ s) :
    groupSlot lib e = elemText lib e := by
  cases e with
  | str s => exact h.string s (hnul s rfl)
  | _ => rfl

/-- The names of the kinds hold no NUL. -/
theorem nul_not_mem_of_kindParse {s : CStr} {k : CorrContribKind} (h : kindParse s = some k) :
    0 ∉ s := by
  unfold kindParse at h
  split at h
  · rename_i hs
    rw [hs]
    decide
  split at h
  · rename_i hs
    rw [hs]
    decide
  split at h
  · rename_i hs
    rw [hs]
    decide
  split at h
  · rename_i hs
    rw [hs]
    decide
  · cases h

/-- A mask comes back exactly if it is one of 64 bits with a sign. -/
theorem mask_kept_iff (h : lib.Exact) (hrange : lib.OutOfRange) (i : ℤ) :
    (((lib.getInt64 (.int i)).toUInt64.toNat : ℤ) = i ∨
        (lib.getInt64 (.int i)).toUInt64.toInt64.toInt = i) ↔ -2 ^ 63 ≤ i ∧ i < 2 ^ 63 := by
  rcases lt_or_ge i (-2 ^ 63) with hlo | hlo
  · have hmin : (Int64.minValue.toUInt64.toNat : ℤ) = 2 ^ 63 ∧
        Int64.minValue.toUInt64.toInt64.toInt = -2 ^ 63 := by decide
    rw [hrange.below i hlo, hmin.1, hmin.2]
    omega
  rcases le_or_gt (2 ^ 63) i with hhi | hhi
  · have hmax : (Int64.maxValue.toUInt64.toNat : ℤ) = 2 ^ 63 - 1 ∧
        Int64.maxValue.toUInt64.toInt64.toInt = 2 ^ 63 - 1 := by decide
    rw [hrange.above i hhi, hmax.1, hmax.2]
    omega
  · have hback : (Int64.ofInt i).toInt = i := Int64.toInt_ofInt_of_le hlo hhi
    refine iff_of_true (.inr ?_) ⟨hlo, hhi⟩
    conv_lhs => rw [← hback]
    rw [h.int64, Int64.toInt64_toUInt64, hback]

/-- What the checks have found. -/
theorem wireHeader_spec {kind : CorrContribKind} {corrId : CStr}
    (h : wireHeader lib j = some (kind, corrId)) :
    (∃ s, j.get (cstr "kind") = some (.str s) ∧ kindParse (lib.getString (.str s)) = some kind) ∧
      ∃ s, j.get (cstr "corr_id") = some (.str s) ∧ lib.getString (.str s) = corrId := by
  unfold wireHeader at h
  split at h
  · split at h
    · split at h
      · cases h
      · split at h
        · rename_i kn hkn
          split at h
          · cases h
          · rename_i k hk
            split at h
            · rename_i id hid
              obtain ⟨rfl, rfl⟩ := Prod.mk.inj (Option.some.inj h)
              exact ⟨⟨kn, hkn, hk⟩, id, hid, rfl⟩
            · cases h
        · cases h
    · cases h
  · cases h

/-- **What is decoded is all of the object** if its group fits the slots, its count 32 bits, and the
getters alter nothing. -/
theorem represents_of_fits (h : lib.Exact) (hrange : lib.OutOfRange)
    (hgroup : (groupArray j).length ≤ cap) (hcount : ¬ CountOutside j) (hold : GettersHold j)
    (hdecode : corrContribFromJson lib j cap = some c) : Represents lib j c := by
  obtain ⟨⟨kind, corrId⟩, hheader, rfl⟩ := Option.map_eq_some_iff.mp hdecode
  obtain ⟨⟨s, hs, hkind⟩, s', hs', hid⟩ := wireHeader_spec hheader
  rw [h.string s (hold.strings _ (by decide) s hs)] at hkind
  rw [h.string s' (hold.strings _ (by decide) s' hs')] at hid
  refine ⟨fun t ht => ?_, fun t ht => ?_, ?_, fun q hq => ?_, fun i hi => ?_, fun q hq => ?_,
    fun i hi => ?_, fun t ht => ?_⟩
  · cases hs.symm.trans ht
    exact hkind.symm
  · cases hs'.symm.trans ht
    exact congrArg some hid.symm
  · dsimp only
    rw [List.take_of_length_le hgroup]
    exact List.map_congr_left fun e he =>
      congrArg some (groupSlot_eq h fun t ht => hold.group t (ht ▸ he))
  · dsimp only
    rw [hq, Option.map_some, Option.getD_some, h.double]
  · rw [CountOutside, hi] at hcount
    dsimp only at hcount ⊢
    push Not at hcount
    have hback : (Int64.ofInt i).toInt = i := Int64.toInt_ofInt_of_le (by omega) (by omega)
    rw [hi, Option.map_some, Option.getD_some, ← hback, h.int64]
    exact toUInt32_of_range (hback.symm ▸ hcount.1) (hback.symm ▸ hcount.2)
  · dsimp only
    rw [hq, Option.map_some, Option.getD_some, h.double]
  · dsimp only
    rw [hi, Option.map_some, Option.getD_some]
    exact (mask_kept_iff h hrange i).mpr (hold.seenMask i hi)
  · dsimp only
    rw [ht]
    exact congrArg some (h.string t (hold.strings _ (by decide) t ht))

/-- If all of an object is in what is decoded, the getters have altered nothing. -/
theorem gettersHold_of_represents (h : lib.Exact) (hrange : lib.OutOfRange)
    (hgroup : (groupArray j).length ≤ cap) (hdecode : corrContribFromJson lib j cap = some c)
    (hrep : Represents lib j c) : GettersHold j := by
  obtain ⟨⟨kind, corrId⟩, hheader, rfl⟩ := Option.map_eq_some_iff.mp hdecode
  obtain ⟨-, s', hs', hid⟩ := wireHeader_spec hheader
  have hkept : ∀ {s : CStr}, lib.getString (.str s) = s → 0 ∉ s :=
    (JsonLib.getString_eq_iff h hrange).mp
  refine ⟨fun name hname s hs => ?_, fun s hs => ?_, fun i hi => ?_⟩
  · simp only [List.mem_cons, List.not_mem_nil, or_false] at hname
    rcases hname with rfl | rfl | rfl
    · exact nul_not_mem_of_kindParse (hrep.kind s hs).symm
    · have hcorr := hrep.corrId s hs
      cases hs'.symm.trans hs
      exact hkept (hid.trans (Option.some.inj hcorr))
    · have hvalue := hrep.value s hs
      dsimp only at hvalue
      rw [hs] at hvalue
      exact hkept (Option.some.inj hvalue)
  · have hslots := hrep.group
    dsimp only at hslots
    rw [List.take_of_length_le hgroup] at hslots
    exact hkept (Option.some.inj (List.map_inj_left.mp hslots _ hs))
  · have hmask := hrep.seenMask i hi
    dsimp only at hmask
    rw [hi, Option.map_some, Option.getD_some] at hmask
    exact (mask_kept_iff h hrange i).mp hmask

/-- A contribution with a count of 2^32 + 1. -/
def wideCount : Json :=
  .obj [(cstr "v", .int 1), (cstr "kind", .str (cstr "count")), (cstr "corr_id", .str (cstr "ec")),
    (cstr "count", .int 4294967297)]

/-- A contribution without a count. -/
def plainSeen : Json :=
  .obj [(cstr "v", .int 1), (cstr "kind", .str (cstr "seen")), (cstr "corr_id", .str (cstr "ec")),
    (cstr "group", .arr [.str (cstr "a")]), (cstr "seen_mask", .int 5)]

end Lossless

/-! ## Round trip

The encoder writes what the decoder accepts.  The object is built by adding members to an object,
and an added member takes the place of one of its name; so each member is read back through the
layers that were added after it, which have other names.  From there on it is the decoder on known
members. -/

section RoundTrip

variable {lib : JsonLib} {c : CorrContrib}

/-- The members every contribution has, and none of the others. -/
theorem get_wireCommon (c : CorrContrib) (kn corrId : CStr) (key : Json) :
    let j := wireCommon c kn corrId key
    (j.get (cstr "v") = some (.int 1) ∧ j.get (cstr "kind") = some (.str kn) ∧
        j.get (cstr "corr_id") = some (.str corrId) ∧ j.get (cstr "ts") = some (.double c.ts) ∧
        j.get (cstr "group") = some (.arr (c.groupVals.map fun v => .str (v.getD [])))) ∧
      j.get (cstr "value") = none :=
  ⟨⟨rfl, rfl, rfl, rfl, rfl⟩, rfl⟩

theorem get_wireOrigin {name : CStr} (h : name ≠ cstr "origin") (origin : Option CStr) (j : Json) :
    (wireOrigin origin j).get name = j.get name := by
  rw [wireOrigin]
  split
  · exact Json.get_addSome_ne h
  · rfl

/-- The names of the members that depend on the kind. -/
def payloadNames : List CStr := [cstr "count", cstr "numeric", cstr "seen_mask", cstr "value"]

theorem get_wirePayload_ne {name : CStr} (h : name ∉ payloadNames) (j : Json) :
    (wirePayload c j).get name = j.get name := by
  simp only [payloadNames, List.mem_cons, List.not_mem_nil, or_false, not_or] at h
  unfold wirePayload
  cases c.kind with
  | none => rfl
  | some k =>
    cases k with
    | event => rfl
    | count => exact Json.get_add_ne h.1
    | sum => exact (Json.get_add_ne h.1).trans (Json.get_add_ne h.2.1)
    | seen => exact Json.get_add_ne h.2.2.1
    | distinct => exact Json.get_addSome_ne h.2.2.2

/-- The members of the kind. -/
theorem get_wirePayload (j : Json) (hvalue : j.get (cstr "value") = none) :
    (c.kind = some .count ∨ c.kind = some .sum →
        (wirePayload c j).get (cstr "count") = some (wireCount c)) ∧
      (c.kind = some .sum → (wirePayload c j).get (cstr "numeric") = some (.double c.numeric)) ∧
      (c.kind = some .seen →
        (wirePayload c j).get (cstr "seen_mask") = some (.int c.seenMask.toInt64.toInt)) ∧
      (c.kind = some .distinct →
        (wirePayload c j).get (cstr "value") = c.value.map Json.str) := by
  have hname : cstr "numeric" ≠ cstr "count" := by decide
  unfold wirePayload
  refine ⟨fun h => ?_, fun h => ?_, fun h => ?_, fun h => ?_⟩
  · rcases h with h | h
    · rw [h]
      exact Json.get_add_self _ _ _
    · rw [h]
      exact Json.get_add_self _ _ _
  · rw [h]
    exact (Json.get_add_ne hname).trans (Json.get_add_self _ _ _)
  · rw [h]
    exact Json.get_add_self _ _ _
  · rw [h]
    exact Json.get_addSome_self hvalue

/-- The same contribution, a missing group value being an empty one and a count at least one. -/
structure SameContrib (c c' : CorrContrib) : Prop where
  kind : c'.kind = c.kind
  corrId : c'.corrId = c.corrId
  ts : c'.ts = c.ts
  group : c'.groupVals = c.groupVals.map fun v => some (v.getD [])
  count : c.kind = some .count ∨ c.kind = some .sum → c'.count = if c.count = 0 then 1 else c.count
  numeric : c.kind = some .sum → c'.numeric = c.numeric
  seenMask : c.kind = some .seen → c'.seenMask = c.seenMask
  value : c.kind = some .distinct → c'.value = c.value

/-- A kind on the wire is read back. -/
theorem kindParse_kindName {k : CorrContribKind} (h : k ≠ .event) :
    ∃ kn, kindName (some k) = some kn ∧ kindParse kn = some k := by
  cases k with
  | event => exact absurd rfl h
  | count => exact ⟨_, rfl, by decide⟩
  | sum => exact ⟨_, rfl, by decide⟩
  | distinct => exact ⟨_, rfl, by decide⟩
  | seen => exact ⟨_, rfl, by decide⟩

/-- The count comes back. -/
theorem wireCount_toUInt32 (hlib : lib.Exact) (c : CorrContrib) :
    (lib.getInt64 (wireCount c)).toUInt64.toUInt32 = if c.count = 0 then 1 else c.count := by
  rw [wireCount, hlib.int64, UInt64.toUInt64_toInt64, UInt32.toUInt32_toUInt64]
  by_cases h : c.count = 0
  · rw [if_neg (not_not.mpr h), if_pos h]
  · rw [if_pos h, if_neg h]

/-- What is encoded is an object. -/
theorem exists_members (c : CorrContrib) (kn corrId : CStr) (key : Json) (origin : Option CStr) :
    ∃ ms, wireOrigin origin (wirePayload c (wireCommon c kn corrId key)) = .obj ms := by
  have haddSome : ∀ (j : Json) (name : CStr) (v : Option Json), (∃ ms, j = .obj ms) →
      ∃ ms, j.addSome name v = .obj ms := by
    intro j name v hj
    cases v with
    | none => exact hj
    | some v => exact ⟨_, rfl⟩
  have hpayload : ∃ ms, wirePayload c (wireCommon c kn corrId key) = .obj ms := by
    unfold wirePayload
    cases c.kind with
    | none => exact ⟨_, rfl⟩
    | some k =>
      cases k with
      | distinct => exact haddSome _ _ _ ⟨_, rfl⟩
      | _ => exact ⟨_, rfl⟩
  rw [wireOrigin]
  split
  · exact haddSome _ _ _ hpayload
  · exact hpayload

/-- A contribution whose key is not too long is encoded. -/
theorem corrContribToJson_eq {kn corrId : CStr} (hname : kindName c.kind = some kn)
    (hid : c.corrId = some corrId) (hne : corrId ≠ [])
    (hkey : (ownerKey corrId c.groupVals).length ≤ intMax) (origin : Option CStr) :
    corrContribToJson c origin = some (wireOrigin origin
      (wirePayload c (wireCommon c kn corrId (.str (ownerKey corrId c.groupVals))))) := by
  obtain ⟨b, bs, rfl⟩ := List.exists_cons_of_ne_nil hne
  rw [corrContribToJson, hname, hid]
  dsimp only
  rw [ownerKeyJson_eq hkey]

/-- An object with the members of a contribution. -/
structure WireMembers (c : CorrContrib) (kn id : CStr) (j : Json) : Prop where
  obj : ∃ ms, j = .obj ms
  v : j.get (cstr "v") = some (.int 1)
  kind : j.get (cstr "kind") = some (.str kn)
  corrId : j.get (cstr "corr_id") = some (.str id)
  ts : j.get (cstr "ts") = some (.double c.ts)
  group : j.get (cstr "group") = some (.arr (c.groupVals.map fun v => .str (v.getD [])))
  key : j.get (cstr "key") = some (.str (ownerKey id c.groupVals))
  count : c.kind = some .count ∨ c.kind = some .sum → j.get (cstr "count") = some (wireCount c)
  numeric : c.kind = some .sum → j.get (cstr "numeric") = some (.double c.numeric)
  seenMask : c.kind = some .seen →
    j.get (cstr "seen_mask") = some (.int c.seenMask.toInt64.toInt)
  value : c.kind = some .distinct → j.get (cstr "value") = c.value.map Json.str

/-- The members of what is encoded, read through its layers. -/
theorem wireMembers (c : CorrContrib) (kn corrId : CStr) (origin : Option CStr) :
    WireMembers c kn corrId (wireOrigin origin
      (wirePayload c (wireCommon c kn corrId (.str (ownerKey corrId c.groupVals))))) := by
  have hobj := exists_members c kn corrId (.str (ownerKey corrId c.groupVals)) origin
  have hkey : (wireCommon c kn corrId (.str (ownerKey corrId c.groupVals))).get (cstr "key") =
    some (.str (ownerKey corrId c.groupVals)) := rfl
  obtain ⟨⟨hv, hk, hcorr, hts, hgroup⟩, hvalue⟩ :=
    get_wireCommon c kn corrId (.str (ownerKey corrId c.groupVals))
  generalize wireCommon c kn corrId (.str (ownerKey corrId c.groupVals)) = common at *
  have hout : ∀ {name : CStr}, name ≠ cstr "origin" →
      (wireOrigin origin (wirePayload c common)).get name = (wirePayload c common).get name :=
    fun hname => get_wireOrigin hname origin _
  have hfix : ∀ {name : CStr}, name ≠ cstr "origin" → name ∉ payloadNames →
      (wireOrigin origin (wirePayload c common)).get name = common.get name :=
    fun hname hpay => (hout hname).trans (get_wirePayload_ne hpay common)
  obtain ⟨hcount, hnumeric, hmask, hdistinct⟩ := get_wirePayload (c := c) common hvalue
  exact {
    obj := hobj
    v := (hfix (by decide) (by decide)).trans hv
    kind := (hfix (by decide) (by decide)).trans hk
    corrId := (hfix (by decide) (by decide)).trans hcorr
    ts := (hfix (by decide) (by decide)).trans hts
    group := (hfix (by decide) (by decide)).trans hgroup
    key := (hfix (by decide) (by decide)).trans hkey
    count := fun h => (hout (by decide)).trans (hcount h)
    numeric := fun h => (hout (by decide)).trans (hnumeric h)
    seenMask := fun h => (hout (by decide)).trans (hmask h)
    value := fun h => (hout (by decide)).trans (hdistinct h) }

/-- The strings of a contribution are C strings: none holds a NUL. -/
def CorrContrib.CStrings (c : CorrContrib) : Prop :=
  ∀ s ∈ c.corrId :: c.value :: c.groupVals, 0 ∉ s.getD []

instance (c : CorrContrib) : Decidable c.CStrings :=
  inferInstanceAs (Decidable (∀ s ∈ c.corrId :: c.value :: c.groupVals, 0 ∉ s.getD []))

theorem CorrContrib.CStrings.group (h : c.CStrings) {v : Option CStr} (hv : v ∈ c.groupVals) :
    0 ∉ v.getD [] :=
  h v (List.mem_cons_of_mem _ (List.mem_cons_of_mem _ hv))

/-- A key of C strings is a C string. -/
theorem CorrContrib.CStrings.ownerKey (h : c.CStrings) {corrId : CStr} (hid : c.corrId = some corrId) :
    0 ∉ ownerKey corrId c.groupVals := by
  intro hmem
  rcases List.mem_append.mp hmem with hcorr | hvals
  · exact h c.corrId List.mem_cons_self (by rwa [hid])
  · obtain ⟨v, hv, hbyte⟩ := List.mem_flatMap.mp hvals
    rcases List.mem_cons.mp hbyte with htab | hval
    · exact absurd htab (by decide)
    · exact h.group hv hval

/-- **An object with the members of a contribution decodes to it.** -/
theorem WireMembers.decoded (hlib : lib.Exact) (hnul : c.CStrings) {kn corrId : CStr} {j : Json}
    (h : WireMembers c kn corrId j) {k : CorrContribKind} (hkind : c.kind = some k)
    (hparse : kindParse kn = some k) (hid : c.corrId = some corrId) {cap : ℕ}
    (hcap : c.groupVals.length ≤ cap) :
    ∃ c', corrContribFromJson lib j cap = some c' ∧ SameContrib c c' := by
  have hheader : wireHeader lib j = some (k, corrId) := by
    have hone : lib.getInt (.int 1) = 1 := hlib.int 1
    have hkn : lib.getString (.str kn) = kn :=
      hlib.string kn (nul_not_mem_of_kindParse hparse)
    have hcorr : lib.getString (.str corrId) = corrId :=
      hlib.string corrId (by simpa [hid] using hnul c.corrId List.mem_cons_self)
    obtain ⟨ms, rfl⟩ := h.obj
    unfold wireHeader
    simp only [h.v, hone, h.kind, hkn, hparse, h.corrId, hcorr, ne_eq, not_true_eq_false, if_false]
  refine ⟨_, by rw [corrContribFromJson, hheader]; rfl, hkind.symm, hid.symm, ?_, ?_,
    fun hc => ?_, fun hs => ?_, fun hs => ?_, fun hd => ?_⟩ <;> dsimp only
  · rw [h.ts]
    exact hlib.double c.ts
  · rw [groupArray, h.group, List.take_of_length_le (by rwa [List.length_map]), List.map_map]
    exact List.map_congr_left fun v hv => congrArg some (hlib.string _ (hnul.group hv))
  · rw [h.count hc]
    exact wireCount_toUInt32 hlib c
  · rw [h.numeric hs]
    exact hlib.double c.numeric
  · rw [h.seenMask hs, Option.map_some, Option.getD_some, hlib.int64]
    exact UInt64.toUInt64_toInt64 c.seenMask
  · rw [h.value hd]
    cases hvalue : c.value with
    | none => rfl
    | some v =>
      refine congrArg some (hlib.string v ?_)
      simpa [hvalue] using hnul c.value (List.mem_cons_of_mem _ List.mem_cons_self)

/-- **What is encoded decodes to the same contribution.** -/
theorem contrib_roundtrip (hlib : lib.Exact) (hnul : c.CStrings) {k : CorrContribKind}
    (hkind : c.kind = some k) (hmerge : k ≠ .event) {corrId : CStr} (hid : c.corrId = some corrId)
    (hne : corrId ≠ []) (hkey : (ownerKey corrId c.groupVals).length ≤ intMax) {cap : ℕ}
    (hcap : c.groupVals.length ≤ cap) (origin : Option CStr) :
    ∃ j c', corrContribToJson c origin = some j ∧ corrContribFromJson lib j cap = some c' ∧
      SameContrib c c' := by
  obtain ⟨kn, hname, hparse⟩ := kindParse_kindName hmerge
  obtain ⟨c', hdecode, hsame⟩ :=
    (wireMembers c kn corrId origin).decoded hlib hnul hkind hparse hid hcap
  exact ⟨_, c', corrContribToJson_eq (hkind ▸ hname) hid hne hkey origin, hdecode, hsame⟩

/-- A contribution with a missing group value and the highest bit of its mask set. -/
def edgeContrib : CorrContrib where
  kind := some .seen
  corrId := some (cstr "ec")
  rids := []
  groupVals := [some (cstr "a"), none]
  ts := 1 / 2
  value := none
  numeric := 0
  count := 0
  seenMask := 9223372036854775808

theorem contrib_roundtrip_sample :
    ∃ j c', corrContribToJson edgeContrib (some (cstr "bee")) = some j ∧
      corrContribFromJson JsonLib.strict j 8 = some c' ∧ SameContrib edgeContrib c' :=
  contrib_roundtrip JsonLib.strict_exact (by decide) rfl (by decide) rfl (by decide) (by decide)
    (by decide) _

end RoundTrip

end LibSigma
