import LibSigma.Library.HashLru
import LibSigma.Library.DoublyLinked

/-!
# Linked tables

A hash map with a recency list as a program holds it: the entries are doubly linked in order of use,
and the number of chains has 32 bits.  The table doubles when it is three quarters full; it cannot
double 2^31 chains.

## Three descriptions

A dictionary in order of use is what the table is for, `HashLru` is the map with lists instead of
links, and `LruTable` has the links and the widths.  `Rep` relates a table to a map, operation by
operation, and holds whatever the sizes are.  From the map to the dictionary there is the order of
use.

## The wrap

Doubling 2^31 chains leaves none, and then an entry has no chain to go into.  What the table does
from there on is not what a dictionary does.  `ChainsFit` is the condition that this never happened,
in terms of how many entries each new key joined; and these numbers can be read off the dictionary.
A run on a table and the run on its dictionary return the same and hold the same entries exactly as
long as that condition holds (`Implements.run_iff`).

## Small caps

Most programs have a cap that is far below all this, and do not care.  `Mirrors` is for them: a
table under a cap of at most `3 * 2 ^ 28` represents a map within that cap, and stays so with every
operation, without a condition on the run.  A new key at the cap makes its oldest entry go first, so
the count before an insertion is below the cap in either case (`count_makeWay_lt`).

* `LruTable.Rep`: a table represents a map, and each operation of the table the one of the map.
* `dictUse`, `dictExpire`: an insertion-ordered dictionary.
* `LruTable.Mirrors.*`: with a small cap its chains always fit.
* `LruTable.Tracks.*`: **a table keeps the dictionary of its operations while its chains fit.**
-/

namespace LibSigma.Library

/-- A hash table whose entries are linked in order of use. -/
structure LruTable (κ ν : Type) where
  buckets : List (List (HashNode κ ν))
  nBuckets : UInt32
  lru : Links κ
  count : UInt32

/-! ## Dictionaries -/

section Dictionary

variable {κ ν : Type} [DecidableEq κ]

/-- The value of a key. -/
def dictGet (d : List (κ × ν)) (k : κ) : Option ν := (d.find? fun e => decide (e.1 = k)).map Prod.snd

/-- The key is used: it moves to the end with its new value.  A new key makes the first one go if
there are `cap`.  With it come the value that was found or made, and whether a key had to go. -/
def dictUse (cap : ℕ) (k : κ) (new : ν) (f : ν → ν) (d : List (κ × ν)) : List (κ × ν) × ν × Bool :=
  match dictGet d k with
  | some v => ((d.filter fun e => e.1 ≠ k) ++ [(k, f v)], v, false)
  | none =>
    let full := decide (cap ≤ d.length)
    ((if full then d.tail else d) ++ [(k, f new)], new, full)

/-- The entries whose value satisfies `p` are deleted. -/
def dictExpire (p : ν → Bool) (d : List (κ × ν)) : List (κ × ν) := d.filter fun e => !p e.2

/-- How many entries a new key joins. -/
def dictJoins (cap : ℕ) (k : κ) (d : List (κ × ν)) : List ℕ :=
  match dictGet d k with
  | some _ => []
  | none => [if cap ≤ d.length then d.length - 1 else d.length]

end Dictionary

section Dictionary

variable {κ ν : Type} [DecidableEq κ]

theorem dictGet_append (d d' : List (κ × ν)) (k : κ) :
    dictGet (d ++ d') k = (dictGet d k).or (dictGet d' k) := by
  rw [dictGet, dictGet, dictGet, List.find?_append]
  cases d.find? fun e => decide (e.1 = k) <;> rfl

/-- Using a key leaves the value of every other key, unless that one is the first and has to go. -/
theorem dictGet_dictUse (cap : ℕ) {k k' : κ} (hne : k' ≠ k) (new : ν) (f : ν → ν)
    {d : List (κ × ν)} (hnodup : (d.map Prod.fst).Nodup) :
    dictGet (dictUse cap k new f d).1 k' = dictGet d k' ∨
      dictGet (dictUse cap k new f d).1 k' = none := by
  have hlast : ∀ v : ν, dictGet [(k, v)] k' = none := fun v => by
    rw [dictGet, List.find?_cons_of_neg (by simpa using hne.symm)]
    rfl
  rw [dictUse]
  cases dictGet d k with
  | some v =>
    left
    rw [dictGet_append, hlast, Option.or_none, dictGet, List.find?_filter, dictGet]
    congr 2
    funext e
    by_cases he : e.1 = k'
    · simp [he, hne]
    · simp [he]
  | none =>
    dsimp only
    rw [dictGet_append, hlast, Option.or_none]
    split
    · cases d with
      | nil => exact Or.inl rfl
      | cons e d =>
        rw [List.map_cons, List.nodup_cons] at hnodup
        rw [List.tail_cons]
        by_cases he : e.1 = k'
        · right
          rw [dictGet, List.find?_eq_none.mpr, Option.map_none]
          intro x hx hkey
          exact hnodup.1 (he ▸ of_decide_eq_true hkey ▸ List.mem_map_of_mem hx)
        · left
          rw [dictGet, dictGet, List.find?_cons_of_neg (by simpa using he)]
    · exact Or.inl rfl

end Dictionary

namespace LruTable

variable {κ ν : Type} [DecidableEq κ]

/-! ## Operations -/

section Operations

variable (hash : κ → UInt64) (t : LruTable κ ν)

/-- No entries, in 16 chains. -/
def empty : LruTable κ ν := ⟨List.replicate 16 [], 16, .empty, 0⟩

/-- The chain of a key. -/
def slot (k : κ) : ℕ := HashLru.slotOf t.nBuckets.toNat (hash k)

/-- The value of a key: the first entry of its chain with its hash and its key. -/
def find (k : κ) : Option ν :=
  ((t.buckets.getD (t.slot hash k) []).find? fun nd =>
    decide (nd.hash = hash k) && decide (nd.key = k)).map HashNode.val

/-- The entry of a key becomes the most recently used. -/
def touch (k : κ) : LruTable κ ν := { t with lru := (t.lru.unlink k).pushMru k }

/-- The value of a key is replaced. -/
def set (k : κ) (v : ν) : LruTable κ ν :=
  { t with
    buckets := t.buckets.modify (t.slot hash k)
      (·.map fun nd => if nd.key = k then { nd with val := v } else nd) }

/-- The entry of a key is unlinked from its chain and from the list. -/
def remove (k : κ) : LruTable κ ν :=
  { t with
    buckets := t.buckets.modify (t.slot hash k) (·.filter fun nd => nd.key ≠ k)
    lru := t.lru.unlink k
    count := t.count - 1 }

/-- The least recently used entry is removed. -/
def evict : LruTable κ ν :=
  match t.lru.head with
  | none => t
  | some k => t.remove hash k

/-- Twice as many chains.  Where their number wraps to 0 there is no chain to put an entry into. -/
def grow : Option (LruTable κ ν) :=
  let n := t.nBuckets <<< 1
  if n = 0 then none
  else some { t with buckets := HashLru.refile n.toNat t.buckets.flatten, nBuckets := n }

/-- A new entry, put in front of its chain and at the end of the list; the table grows first when it
is three quarters full. -/
def insert (k : κ) (v : ν) : Option (LruTable κ ν) :=
  (if t.nBuckets * 3 / 4 < t.count + 1 then t.grow else some t).map fun t =>
    { t with
      buckets := t.buckets.modify (t.slot hash k) (⟨k, hash k, v⟩ :: ·)
      lru := t.lru.pushMru k
      count := t.count + 1 }

/-- The value of a key, which becomes the most recently used; a new key gets `new`, and makes the
least recently used one go if there are `cap`. -/
def getOrCreate (cap : UInt32) (k : κ) (new : ν) : Option (LruTable κ ν × ν × Bool) :=
  match t.find hash k with
  | some v => some (t.touch k, v, false)
  | none =>
    let full := decide (cap ≤ t.count) && t.lru.head.isSome
    ((if full then t.evict hash else t).insert hash k new).map (·, new, full)

/-- The walk along the list that removes the entries whose value satisfies `p`: the next entry is
read before the entry is removed. -/
def dropLoop (p : ν → Bool) : ℕ → LruTable κ ν → Option κ → Option (LruTable κ ν)
  | _, t, none => some t
  | 0, _, some _ => none
  | steps + 1, t, some k =>
    dropLoop p steps (if (t.find hash k).any p then t.remove hash k else t) (t.lru.next k)

/-- The entries whose value satisfies `p` are removed. -/
def dropExpired (p : ν → Bool) : Option (LruTable κ ν) :=
  dropLoop hash p t.count.toNat t t.lru.head

/-- The entries in order of use. -/
def contents : List (κ × ν) :=
  (t.lru.walk t.count.toNat t.lru.head).filterMap fun k => (t.find hash k).map (k, ·)

end Operations

/-! ## The map of a table

`Rep` says that the links hold the recency list of the map, and that the chains and the count are
those of the map.  The operations are then compared one by one.  They look alike except where links
are changed, and there the lemmas on doubly linked lists do the work. -/

/-- A table represents a map. -/
structure Rep (hash : κ → UInt64) (t : LruTable κ ν) (m : HashLru κ ν) : Prop where
  wf : m.Wf hash
  buckets : t.buckets = m.buckets
  nBuckets : t.nBuckets.toNat = m.buckets.length
  lru : t.lru.Holds m.lru
  count : t.count.toNat = m.count

variable {hash : κ → UInt64} {t : LruTable κ ν} {m : HashLru κ ν}

omit [DecidableEq κ] in
theorem rep_empty : (empty : LruTable κ ν).Rep hash (HashLru.empty 16) :=
  ⟨HashLru.wf_empty (by decide), rfl, rfl, Links.holds_empty, rfl⟩

theorem Rep.find (h : t.Rep hash m) (k : κ) : t.find hash k = m.get hash k := by
  rw [LruTable.find, slot, h.buckets, h.nBuckets]
  rfl

theorem Rep.contents (h : t.Rep hash m) : t.contents hash = m.toList hash := by
  rw [LruTable.contents, h.count, h.wf.count_eq, h.lru.walk]
  simp only [h.find]
  rfl

/-- A key of the list, with what comes before and after it. -/
theorem Rep.split (h : t.Rep hash m) {k : κ} (hk : k ∈ m.lru) :
    ∃ as bs, m.lru = as ++ k :: bs ∧ m.lru.erase k = as ++ bs ∧ k ∉ as ++ bs := by
  obtain ⟨as, bs, hsplit⟩ := List.append_of_mem hk
  have hnodup := h.wf.lru_nodup
  rw [hsplit, List.nodup_middle, List.nodup_cons] at hnodup
  refine ⟨as, bs, hsplit, ?_, hnodup.1⟩
  rw [hsplit, List.erase_append_right _ fun hmem => hnodup.1 (List.mem_append_left _ hmem),
    List.erase_cons_head]

theorem Rep.holds_unlink (h : t.Rep hash m) {k : κ} (hk : k ∈ m.lru) :
    (t.lru.unlink k).Holds (m.lru.erase k) ∧ k ∉ m.lru.erase k := by
  obtain ⟨as, bs, hsplit, herase, hfresh⟩ := h.split hk
  rw [herase]
  exact ⟨(hsplit ▸ h.lru).unlink, hfresh⟩

theorem Rep.touch (h : t.Rep hash m) {k : κ} (hk : k ∈ m.lru) : (t.touch k).Rep hash (m.touch k) :=
  ⟨h.wf.touch hk, h.buckets, h.nBuckets, (h.holds_unlink hk).1.pushMru (h.holds_unlink hk).2, h.count⟩

theorem Rep.set (h : t.Rep hash m) (k : κ) (v : ν) : (t.set hash k v).Rep hash (m.set hash k v) := by
  refine ⟨h.wf.set k v, ?_, ?_, h.lru, h.count⟩
  · rw [LruTable.set, slot, h.buckets, h.nBuckets]
    rfl
  · rw [HashLru.set, List.length_modify]
    exact h.nBuckets

theorem Rep.remove (h : t.Rep hash m) {k : κ} (hk : k ∈ m.lru) :
    (t.remove hash k).Rep hash (m.remove hash k) := by
  refine ⟨h.wf.remove hk, ?_, ?_, (h.holds_unlink hk).1, ?_⟩
  · rw [LruTable.remove, slot, h.buckets, h.nBuckets]
    rfl
  · rw [HashLru.remove, List.length_modify]
    exact h.nBuckets
  · have hpos : 0 < t.count.toNat := by
      rw [h.count, h.wf.count_eq]
      exact List.length_pos_of_mem hk
    have hone : (1 : UInt32) ≤ t.count := UInt32.le_iff_toNat_le.mpr hpos
    rw [LruTable.remove, UInt32.toNat_sub_of_le _ _ hone, h.count]
    rfl

theorem Rep.evict (h : t.Rep hash m) : (t.evict hash).Rep hash (m.evict hash) := by
  unfold LruTable.evict HashLru.evict
  rw [h.lru.head]
  cases hlru : m.lru with
  | nil => exact h
  | cons k ks => exact h.remove (by rw [hlru]; exact List.mem_cons_self)

/-! ## Growth

The test for three quarters is made in 32 bits and wraps for the largest tables, and the number of
chains wraps when it doubles.  Up to 2^30 chains neither happens, and table and map make room in the
same way. -/

/-- The number of chains of a table with `count` entries: within its first 2^30 chains a table is at
most three quarters full. -/
def SizeOk (n count : ℕ) : Prop :=
  (∃ j, 4 ≤ j ∧ j ≤ 30 ∧ n = 2 ^ j ∧ count ≤ 3 * 2 ^ (j - 2)) ∨ n = 2 ^ 31 ∧ count ≤ 3 * 2 ^ 28 + 1

theorem SizeOk.count_lt {n count : ℕ} (h : SizeOk n count) : count + 1 < 2 ^ 32 := by
  rcases h with ⟨j, -, hj, -, hcount⟩ | ⟨-, hcount⟩
  · have hle : 2 ^ (j - 2) ≤ 2 ^ 28 := Nat.pow_le_pow_right (by decide) (by omega)
    omega
  · omega

/-- A smaller table is no fuller. -/
theorem SizeOk.mono {n count count' : ℕ} (h : SizeOk n count) (hle : count' ≤ count) :
    SizeOk n count' := by
  rcases h with ⟨j, hj, hj', hn, hcount⟩ | ⟨hn, hcount⟩
  · exact Or.inl ⟨j, hj, hj', hn, Nat.le_trans hle hcount⟩
  · exact Or.inr ⟨hn, Nat.le_trans hle hcount⟩

omit [DecidableEq κ] in
theorem Rep.toNat_count_succ (h : t.Rep hash m) (hsize : SizeOk m.buckets.length m.count) :
    (t.count + 1).toNat = m.count + 1 := by
  have hlt := hsize.count_lt
  rw [UInt32.toNat_add, h.count]
  exact Nat.mod_eq_of_lt hlt

/-- Three quarters of a table, in 32 bits. -/
theorem toNat_threeQuarters (n : UInt32) : (n * 3 / 4).toNat = n.toNat * 3 % 2 ^ 32 / 4 := by
  rw [UInt32.toNat_div, UInt32.toNat_mul]
  rfl

omit [DecidableEq κ] in
/-- Up to 2^30 chains, a table makes room as the map does. -/
theorem Rep.room_small (h : t.Rep hash m) {j : ℕ} (hj : 4 ≤ j) (hj' : j ≤ 30)
    (hn : m.buckets.length = 2 ^ j) (hcount : m.count ≤ 3 * 2 ^ (j - 2)) :
    ∃ t', (if t.nBuckets * 3 / 4 < t.count + 1 then t.grow else some t) = some t' ∧
      t'.Rep hash m.room ∧
      m.room.buckets.length = if 3 * 2 ^ (j - 2) ≤ m.count then 2 ^ (j + 1) else 2 ^ j := by
  have hsize : SizeOk m.buckets.length m.count := Or.inl ⟨j, hj, hj', hn, hcount⟩
  have hpow : 2 ^ j = 4 * 2 ^ (j - 2) := by
    rw [show 4 = 2 ^ 2 from rfl, ← pow_add]
    congr 1
    omega
  have hle : 2 ^ (j - 2) ≤ 2 ^ 28 := Nat.pow_le_pow_right (by decide) (by omega)
  have hfull : t.nBuckets * 3 / 4 < t.count + 1 ↔ 3 * 2 ^ (j - 2) ≤ m.count := by
    rw [UInt32.lt_iff_toNat_lt, toNat_threeQuarters, h.toNat_count_succ hsize, h.nBuckets, hn,
      Nat.mod_eq_of_lt (by omega)]
    omega
  have hfull' : m.buckets.length * 3 / 4 < m.count + 1 ↔ 3 * 2 ^ (j - 2) ≤ m.count := by
    rw [hn]
    omega
  rw [HashLru.room]
  by_cases hgrow : 3 * 2 ^ (j - 2) ≤ m.count
  · have hdouble : (t.nBuckets <<< 1).toNat = 2 * m.buckets.length := by
      rw [UInt32.toNat_shiftLeft, h.nBuckets, hn]
      show 2 ^ j <<< 1 % 2 ^ 32 = _
      rw [Nat.shiftLeft_eq, Nat.mod_eq_of_lt (by omega)]
      omega
    have hne : t.nBuckets <<< 1 ≠ 0 := fun hzero => by
      have hnat := congrArg UInt32.toNat hzero
      rw [hdouble, hn] at hnat
      have hpos : 0 < 2 ^ j := Nat.pow_pos (by decide)
      have hz : (0 : UInt32).toNat = 0 := rfl
      omega
    have hlen := h.wf.length_grow
    rw [if_pos (hfull.mpr hgrow), if_pos (hfull'.mpr hgrow), if_pos hgrow, grow, if_neg hne]
    refine ⟨_, rfl, ⟨h.wf.grow.1, ?_, hdouble.trans hlen.symm, h.lru, h.count⟩, ?_⟩
    · rw [hdouble, h.buckets]
      rfl
    · rw [hlen, hn, pow_succ]
      omega
  · rw [if_neg fun hlt => hgrow (hfull.mp hlt), if_neg fun hlt => hgrow (hfull'.mp hlt), if_neg hgrow]
    exact ⟨t, rfl, h, hn⟩

omit [DecidableEq κ] in
/-- A table of 2^31 chains has no room for an entry once 2^29 are there: three quarters of it wrap
to a quarter. -/
theorem Rep.room_large (h : t.Rep hash m) (hn : m.buckets.length = 2 ^ 31)
    (hcount : m.count ≤ 3 * 2 ^ 28 + 1) :
    (2 ^ 29 ≤ m.count →
      (if t.nBuckets * 3 / 4 < t.count + 1 then t.grow else some t) = none) ∧
    (m.count < 2 ^ 29 →
      (if t.nBuckets * 3 / 4 < t.count + 1 then t.grow else some t) = some t ∧ m.room = m) := by
  have hfull : t.nBuckets * 3 / 4 < t.count + 1 ↔ 2 ^ 29 ≤ m.count := by
    rw [UInt32.lt_iff_toNat_lt, toNat_threeQuarters, h.toNat_count_succ (Or.inr ⟨hn, hcount⟩),
      h.nBuckets, hn]
    omega
  have hzero : t.nBuckets <<< 1 = 0 := by
    refine UInt32.toNat_inj.mp ?_
    rw [UInt32.toNat_shiftLeft, h.nBuckets, hn]
    rfl
  constructor
  · intro hlarge
    rw [if_pos (hfull.mpr hlarge), grow, if_pos hzero]
  · intro hsmall
    rw [if_neg fun hlt => absurd (hfull.mp hlt) (Nat.not_le_of_lt hsmall), HashLru.room,
      if_neg (by omega)]
    exact ⟨rfl, rfl⟩

/-- A new entry in a table that makes room. -/
theorem Rep.insert {t' : LruTable κ ν}
    (hroom : (if t.nBuckets * 3 / 4 < t.count + 1 then t.grow else some t) = some t')
    (h : t'.Rep hash m.room) (hwf : m.Wf hash) (hlt : m.count + 1 < 2 ^ 32) {k : κ} (hk : k ∉ m.lru)
    (v : ν) : ∃ t'', t.insert hash k v = some t'' ∧ t''.Rep hash (m.insert hash k v) := by
  obtain ⟨-, -, hlru, hcount⟩ := hwf.room
  rw [LruTable.insert, hroom]
  refine ⟨_, rfl, hwf.insert hk v, ?_, ?_, ?_, ?_⟩
  · show t'.buckets.modify (t'.slot hash k) _ = _
    rw [slot, h.buckets, h.nBuckets]
    rfl
  · rw [HashLru.insert, List.length_modify]
    exact h.nBuckets
  · rw [HashLru.lru_insert hwf, ← hlru]
    exact h.lru.pushMru (hlru ▸ hk)
  · show (t'.count + 1).toNat = m.room.count + 1
    rw [UInt32.toNat_add, h.count, hcount]
    exact Nat.mod_eq_of_lt hlt

/-! ## Expiry

The walk reads the next link before it removes an entry, since the links of a removed entry are no
longer to be trusted. -/

/-- **The walk removes what the fold over the list does**: the link that was read before a removal
leads to the next entry that is still to be seen. -/
theorem Rep.dropLoop (p : ν → Bool) {ks : List κ} (h : t.Rep hash m) {ys : List κ}
    (hlru : m.lru = ys ++ ks) {steps : ℕ} (hsteps : ks.length ≤ steps) :
    ∃ t', LruTable.dropLoop hash p steps t ks.head? = some t' ∧
      t'.Rep hash (ks.foldl (HashLru.dropStep hash p) m) := by
  induction ks generalizing t m ys steps with
  | nil => exact ⟨t, by cases steps <;> rfl, h⟩
  | cons k ks ih =>
    obtain ⟨steps, rfl⟩ : ∃ n, steps = n + 1 := ⟨steps - 1, by
      rw [List.length_cons] at hsteps
      omega⟩
    have hmem : k ∈ m.lru := by rw [hlru]; exact List.mem_append_right _ List.mem_cons_self
    have hnext : t.lru.next k = ks.head? := h.lru.next ys k ks hlru
    have hlen : ks.length ≤ steps := by
      rw [List.length_cons] at hsteps
      omega
    rw [List.head?_cons, LruTable.dropLoop, List.foldl_cons, hnext, HashLru.dropStep, h.find]
    by_cases hp : (m.get hash k).any p = true
    · have hnodup := h.wf.lru_nodup
      rw [hlru, List.nodup_middle, List.nodup_cons] at hnodup
      have herase : (m.remove hash k).lru = ys ++ ks := by
        rw [HashLru.remove, hlru, List.erase_append_right _ fun hin =>
          hnodup.1 (List.mem_append_left _ hin), List.erase_cons_head]
      rw [if_pos hp, if_pos hp]
      exact ih (h.remove hmem) herase hlen
    · rw [if_neg hp, if_neg hp]
      have hlru' : m.lru = (ys ++ [k]) ++ ks := by rw [hlru, List.append_assoc]; rfl
      exact ih h hlru' hlen

theorem Rep.dropExpired (h : t.Rep hash m) (p : ν → Bool) :
    ∃ t', t.dropExpired hash p = some t' ∧ t'.Rep hash (m.dropWhere hash p) := by
  have hlru : m.lru = [] ++ m.lru := rfl
  rw [LruTable.dropExpired, h.lru.head, h.count]
  exact h.dropLoop p hlru (Nat.le_of_eq h.wf.count_eq.symm)

/-! ## The dictionary of a table

From a map to the entries in order of use.  Expiry filters them, a key that is there moves to the
end, and a new key joins at the end, unless the table cannot make room.  `Tracks` counts along how
many entries new keys have joined, because that decides how often the table has doubled. -/

theorem Rep.dictGet (h : t.Rep hash m) (k : κ) :
    Library.dictGet (m.toList hash) k = t.find hash k := by
  rw [h.find, Library.dictGet]
  cases hfind : (m.toList hash).find? fun e => decide (e.1 = k) with
  | none =>
    cases hget : m.get hash k with
    | none => rfl
    | some v =>
      have hmem := h.wf.mem_toList.mpr hget
      exact absurd (decide_eq_true rfl) (List.find?_eq_none.mp hfind _ hmem)
  | some e =>
    have hdec := List.find?_some hfind
    have hkey : e.1 = k := of_decide_eq_true hdec
    have hmem : (k, e.2) ∈ m.toList hash := hkey ▸ List.mem_of_find?_eq_some hfind
    rw [h.wf.mem_toList.mp hmem]
    rfl

/-- Some new key has joined at least three quarters of 2^30 entries. -/
def Outgrown (joins : List ℕ) : Prop := ∃ n ∈ joins, 3 * 2 ^ 28 ≤ n

/-- A table keeps the dictionary `d`, after new keys joined as many entries as `joins` says. -/
def Tracks (hash : κ → UInt64) (t : LruTable κ ν) (d : List (κ × ν)) (joins : List ℕ) : Prop :=
  ∃ m : HashLru κ ν, t.Rep hash m ∧ m.toList hash = d ∧ SizeOk m.buckets.length m.count ∧
    (m.buckets.length = 2 ^ 31 ↔ Outgrown joins)

variable {d : List (κ × ν)} {joins : List ℕ}

theorem tracks_empty : (empty : LruTable κ ν).Tracks hash [] [] := by
  refine ⟨HashLru.empty 16, rep_empty, rfl, Or.inl ⟨4, Nat.le_refl 4, by decide, ?_, Nat.zero_le _⟩, ?_⟩
  · exact List.length_replicate
  · constructor
    · intro hlen
      rw [HashLru.empty, List.length_replicate] at hlen
      exact absurd hlen (by decide)
    · rintro ⟨n, hn, -⟩
      exact absurd hn List.not_mem_nil

theorem Tracks.contents (h : t.Tracks hash d joins) : t.contents hash = d := by
  obtain ⟨m, hrep, hd, -, -⟩ := h
  rw [hrep.contents, hd]

theorem Tracks.count (h : t.Tracks hash d joins) : t.count.toNat = d.length := by
  obtain ⟨m, hrep, rfl, -, -⟩ := h
  rw [hrep.count, hrep.wf.length_toList]

theorem Tracks.find (h : t.Tracks hash d joins) (k : κ) : t.find hash k = Library.dictGet d k := by
  obtain ⟨m, hrep, rfl, -, -⟩ := h
  exact (hrep.dictGet k).symm

/-- The keys of the dictionary are distinct. -/
theorem Tracks.nodup (h : t.Tracks hash d joins) : (d.map Prod.fst).Nodup := by
  obtain ⟨m, hrep, rfl, -, -⟩ := h
  exact hrep.wf.map_fst_toList ▸ hrep.wf.lru_nodup

/-- **Expiry** deletes from the dictionary. -/
theorem Tracks.dropExpired (h : t.Tracks hash d joins) (p : ν → Bool) :
    ∃ t', t.dropExpired hash p = some t' ∧ t'.Tracks hash (dictExpire p d) joins := by
  obtain ⟨m, hrep, rfl, hsize, hjoins⟩ := h
  obtain ⟨t', hdrop, hrep'⟩ := hrep.dropExpired p
  refine ⟨t', hdrop, m.dropWhere hash p, hrep', hrep.wf.toList_dropWhere p, ?_, ?_⟩
  · rw [HashLru.length_buckets_dropWhere]
    refine hsize.mono ?_
    rw [← hrep'.wf.length_toList, ← hrep.wf.length_toList, hrep.wf.toList_dropWhere]
    exact List.length_filter_le _ _
  · rw [HashLru.length_buckets_dropWhere, hjoins]

/-- The value of a new entry is replaced where it is, at the end. -/
theorem toList_set_insert (h : m.Wf hash) {k : κ} (hk : k ∉ m.lru) (new v : ν) :
    ((m.insert hash k new).set hash k v).toList hash = m.toList hash ++ [(k, v)] := by
  have hlru := HashLru.lru_insert h k new
  have hmem : k ∈ (m.insert hash k new).lru := by
    rw [hlru]
    exact List.mem_append_right _ (List.mem_singleton_self k)
  -- it is the most recently used already
  have htouch : ((m.insert hash k new).set hash k v).touch k = (m.insert hash k new).set hash k v := by
    have herase : (m.insert hash k new).lru.erase k ++ [k] = (m.insert hash k new).lru := by
      rw [hlru, List.erase_append_right _ hk, List.erase_cons_head, List.append_nil]
    rw [HashLru.touch, HashLru.set, herase]
  rw [← htouch, (h.insert hk new).toList_set_touch hmem, h.toList_insert hk, List.filter_append,
    List.filter_eq_self.mpr, List.filter_cons_of_neg (by simp), List.filter_nil, List.append_nil]
  intro e he
  refine decide_eq_true fun hkey => hk ?_
  rw [← h.map_fst_toList, ← hkey]
  exact List.mem_map_of_mem he

omit [DecidableEq κ] in
/-- The chains of a table after a new key joined its entries. -/
theorem length_insert (m : HashLru κ ν) (k : κ) (v : ν) :
    (m.insert hash k v).buckets.length = m.room.buckets.length := List.length_modify _ _ _

/-- A new key in a table: where 2^31 chains have to double, nothing comes of it. -/
theorem Rep.join (h : t.Rep hash m) (hsize : SizeOk m.buckets.length m.count) {k : κ}
    (hk : k ∉ m.lru) (new : ν) :
    (m.buckets.length = 2 ^ 31 ∧ 2 ^ 29 ≤ m.count → t.insert hash k new = none) ∧
    (¬ (m.buckets.length = 2 ^ 31 ∧ 2 ^ 29 ≤ m.count) → ∃ t', t.insert hash k new = some t' ∧
      t'.Rep hash (m.insert hash k new) ∧
      SizeOk (m.insert hash k new).buckets.length (m.insert hash k new).count ∧
      ((m.insert hash k new).buckets.length = 2 ^ 31 ↔
        m.buckets.length = 2 ^ 31 ∨ 3 * 2 ^ 28 ≤ m.count)) := by
  have hcount : (m.insert hash k new).count = m.count + 1 :=
    congrArg (· + 1) h.wf.room.2.2.2
  have hcountlt := hsize.count_lt
  rw [length_insert, hcount]
  rcases hsize with ⟨j, hj, hj', hn, hle⟩ | ⟨hn, hle⟩
  · have hlt : 2 ^ j < 2 ^ 31 := Nat.pow_lt_pow_right (by decide) (by omega)
    have hsmall : ¬ m.buckets.length = 2 ^ 31 := by omega
    refine ⟨fun hout => absurd hout.1 hsmall, fun _ => ?_⟩
    obtain ⟨t₁, hroom, hrep, hlen⟩ := h.room_small hj hj' hn hle
    obtain ⟨t', hins, hrep'⟩ := hrep.insert hroom h.wf hcountlt hk new
    refine ⟨t', hins, hrep', ?_⟩
    rw [hlen, or_iff_right hsmall]
    by_cases hgrow : 3 * 2 ^ (j - 2) ≤ m.count
    · rw [if_pos hgrow]
      by_cases hlast : j = 30
      · subst hlast
        exact ⟨Or.inr ⟨rfl, by omega⟩, fun _ => by omega, fun _ => rfl⟩
      · have hlt' : 2 ^ (j + 1) < 2 ^ 31 := Nat.pow_lt_pow_right (by decide) (by omega)
        have hle' : 2 ^ (j - 2) ≤ 2 ^ 27 := Nat.pow_le_pow_right (by decide) (by omega)
        have hnext : 2 ^ (j + 1 - 2) = 2 * 2 ^ (j - 2) := by
          rw [show j + 1 - 2 = (j - 2) + 1 by omega, Nat.pow_succ]
          omega
        have hpos : 0 < 2 ^ (j - 2) := Nat.pow_pos (by decide)
        refine ⟨Or.inl ⟨j + 1, by omega, by omega, rfl, by omega⟩, fun heq => ?_, fun hge => ?_⟩ <;>
          omega
    · rw [if_neg hgrow]
      have hle' : 2 ^ (j - 2) ≤ 2 ^ 28 := Nat.pow_le_pow_right (by decide) (by omega)
      refine ⟨Or.inl ⟨j, hj, hj', rfl, by omega⟩, fun heq => ?_, fun hge => ?_⟩ <;> omega
  · obtain ⟨hnone, hsome⟩ := h.room_large hn hle
    refine ⟨fun hout => ?_, fun hnot => ?_⟩
    · rw [LruTable.insert, hnone hout.2]
      rfl
    · have hlt : m.count < 2 ^ 29 := Nat.lt_of_not_le fun hge => hnot ⟨hn, hge⟩
      obtain ⟨hroom, hsame⟩ := hsome hlt
      obtain ⟨t', hins, hrep'⟩ := Rep.insert hroom (hsame.symm ▸ h) h.wf hcountlt hk new
      refine ⟨t', hins, hrep', ?_⟩
      rw [hsame]
      exact ⟨Or.inr ⟨hn, by omega⟩, fun _ => Or.inl hn, fun _ => hn⟩

/-- The map that a new key is put into: at the cap without its oldest entry. -/
def makeWay (hash : κ → UInt64) (cap : ℕ) (m : HashLru κ ν) : HashLru κ ν :=
  if decide (cap ≤ m.count) && !m.lru.isEmpty then m.evict hash else m

theorem makeWay_spec (h : m.Wf hash) (cap : ℕ) :
    (makeWay hash cap m).Wf hash ∧ (makeWay hash cap m).buckets.length = m.buckets.length ∧
      (makeWay hash cap m).count ≤ m.count ∧ ∀ k ∈ (makeWay hash cap m).lru, k ∈ m.lru := by
  unfold makeWay
  split
  · obtain ⟨hwf, hlru, -⟩ := h.evict
    refine ⟨hwf, HashLru.length_buckets_evict, ?_, fun k hk => List.mem_of_mem_tail (hlru ▸ hk)⟩
    rw [hwf.count_eq, hlru, List.length_tail, ← h.count_eq]
    exact Nat.sub_le _ _
  · exact ⟨h, rfl, Nat.le_refl _, fun _ hk => hk⟩

/-- A table at its cap is not empty. -/
theorem full_eq (h : m.Wf hash) {cap : ℕ} (hcap : 0 < cap) :
    (decide (cap ≤ m.count) && !m.lru.isEmpty) = decide (cap ≤ (m.toList hash).length) := by
  rw [h.length_toList]
  cases hlru : m.lru with
  | nil =>
    have hzero : m.count = 0 := by rw [h.count_eq, hlru, List.length_nil]
    rw [List.isEmpty_nil, Bool.not_true, Bool.and_false, hzero]
    exact (decide_eq_false (by omega)).symm
  | cons k ks => rw [List.isEmpty_cons, Bool.not_false, Bool.and_true]

/-- The entries that a new key joins. -/
theorem toList_makeWay (h : m.Wf hash) {cap : ℕ} (hcap : 0 < cap) :
    (makeWay hash cap m).toList hash =
      if cap ≤ (m.toList hash).length then (m.toList hash).tail else m.toList hash := by
  rw [makeWay, full_eq h hcap]
  simp only [decide_eq_true_eq]
  split
  · exact h.evict.2.2
  · rfl

/-- **The operations on a table are those on its map**: a key that is there. -/
theorem Rep.getOrCreate_hit (h : t.Rep hash m) (cap : UInt32) {k : κ} {v : ν}
    (hget : m.get hash k = some v) (new : ν) :
    t.getOrCreate hash cap k new = some (t.touch k, v, false) ∧ (t.touch k).Rep hash (m.touch k) := by
  rw [LruTable.getOrCreate, h.find, hget]
  exact ⟨rfl, h.touch (h.wf.get_isSome_iff.mp (by rw [hget]; rfl))⟩

/-- **The operations on a table are those on its map**: a new key. -/
theorem Rep.getOrCreate_miss (h : t.Rep hash m) (cap : UInt32) {k : κ} (hget : m.get hash k = none)
    (new : ν) : (if decide (cap.toNat ≤ m.count) && !m.lru.isEmpty then t.evict hash else t).Rep hash
        (makeWay hash cap.toNat m) ∧
      t.getOrCreate hash cap k new =
        ((if decide (cap.toNat ≤ m.count) && !m.lru.isEmpty then t.evict hash else t).insert hash k
          new).map (·, new, decide (cap.toNat ≤ m.count) && !m.lru.isEmpty) := by
  have hfull : (decide (cap ≤ t.count) && t.lru.head.isSome) =
      (decide (cap.toNat ≤ m.count) && !m.lru.isEmpty) := by
    rw [h.lru.head, ← h.count]
    simp only [UInt32.le_iff_toNat_le]
    cases m.lru <;> rfl
  refine ⟨?_, by rw [LruTable.getOrCreate, h.find, hget, hfull]⟩
  unfold makeWay
  split
  · exact h.evict
  · exact h

/-! ## A table with a small cap

With a cap this small the chains never get to the point where doubling is a question. -/

variable (hash t m) in
/-- A table that holds a map of at most `cap` entries, and can still double its chains. -/
structure Mirrors (cap : ℕ) : Prop where
  rep : t.Rep hash m
  size : SizeOk m.buckets.length m.count
  chains : m.buckets.length ≠ 2 ^ 31
  count_le : m.count ≤ cap

omit [DecidableEq κ] in
theorem mirrors_empty (cap : ℕ) : (empty : LruTable κ ν).Mirrors hash (.empty 16) cap where
  rep := rep_empty
  size := Or.inl ⟨4, Nat.le_refl _, by decide, rfl, Nat.zero_le _⟩
  chains heq := absurd (List.length_replicate.symm.trans heq) (by decide)
  count_le := Nat.zero_le _

omit [DecidableEq κ] in
/-- Operations that keep the chains and add no entry keep the table. -/
theorem Mirrors.of_rep {cap : ℕ} (h : t.Mirrors hash m cap) {t' : LruTable κ ν} {m' : HashLru κ ν}
    (hrep : t'.Rep hash m') (hlen : m'.buckets.length = m.buckets.length) (hcount : m'.count ≤ m.count) :
    t'.Mirrors hash m' cap where
  rep := hrep
  size := hlen ▸ h.size.mono hcount
  chains := hlen ▸ h.chains
  count_le := Nat.le_trans hcount h.count_le

theorem Mirrors.touch {cap : ℕ} (h : t.Mirrors hash m cap) {k : κ} (hk : k ∈ m.lru) :
    (t.touch k).Mirrors hash (m.touch k) cap := h.of_rep (h.rep.touch hk) rfl (Nat.le_refl _)

theorem Mirrors.set {cap : ℕ} (h : t.Mirrors hash m cap) (k : κ) (v : ν) :
    (t.set hash k v).Mirrors hash (m.set hash k v) cap :=
  h.of_rep (h.rep.set k v) (List.length_modify _ _ _) (Nat.le_refl _)

theorem Mirrors.dropExpired {cap : ℕ} (h : t.Mirrors hash m cap) (p : ν → Bool) :
    ∃ t', t.dropExpired hash p = some t' ∧ t'.Mirrors hash (m.dropWhere hash p) cap := by
  obtain ⟨t', hdrop, hrep⟩ := h.rep.dropExpired p
  refine ⟨t', hdrop, h.of_rep hrep (HashLru.length_buckets_dropWhere _) ?_⟩
  rw [← hrep.wf.length_toList, ← h.rep.wf.length_toList, h.rep.wf.toList_dropWhere]
  exact List.length_filter_le _ _

/-- A map at its cap has room for one entry once way is made. -/
theorem count_makeWay_lt (h : m.Wf hash) {cap : ℕ} (hpos : 0 < cap) (hle : m.count ≤ cap) :
    (makeWay hash cap m).count < cap := by
  have hlen := congrArg List.length (toList_makeWay h hpos)
  rw [(makeWay_spec h cap).1.length_toList, h.length_toList] at hlen
  rw [hlen]
  split_ifs with hfull
  · rw [List.length_tail, h.length_toList]
    omega
  · rw [h.length_toList]
    omega

/-- **A new key** finds room as it does in the map: a small cap is reached before the chains are at
their end. -/
theorem Mirrors.getOrCreate_miss {cap : UInt32} (h : t.Mirrors hash m cap.toNat) (hpos : 0 < cap)
    (hcap : cap.toNat ≤ 3 * 2 ^ 28) {k : κ} (hget : m.get hash k = none) (new : ν) :
    ∃ t', t.getOrCreate hash cap k new =
        some (t', new, decide (cap.toNat ≤ m.count) && !m.lru.isEmpty) ∧
      t'.Mirrors hash ((makeWay hash cap.toNat m).insert hash k new) cap.toNat := by
  obtain ⟨hrep, hcreate⟩ := h.rep.getOrCreate_miss cap hget new
  obtain ⟨-, hlen, hcount, hlru⟩ := makeWay_spec h.rep.wf cap.toNat
  have hlt := count_makeWay_lt h.rep.wf (UInt32.lt_iff_toNat_lt.mp hpos) h.count_le
  have hnew : k ∉ (makeWay hash cap.toNat m).lru := fun hmem =>
    h.rep.wf.get_eq_none_iff.mp hget (hlru k hmem)
  obtain ⟨-, hsome⟩ := hrep.join (hlen ▸ h.size.mono hcount) hnew new
  obtain ⟨t', hins, hrep', hsize, hchains⟩ := hsome fun hout => h.chains (hlen ▸ hout.1)
  refine ⟨t', by rw [hcreate, hins, Option.map_some], hrep', hsize, fun heq => ?_, ?_⟩
  · rcases hchains.mp heq with hold | hmany
    · exact h.chains (hlen ▸ hold)
    · omega
  · have hinsert : ((makeWay hash cap.toNat m).insert hash k new).count =
        (makeWay hash cap.toNat m).count + 1 := congrArg (· + 1) hrep.wf.room.2.2.2
    omega

/-- **A key that is there** moves to the end with its new value. -/
theorem Tracks.use_hit (h : t.Tracks hash d joins) (cap : UInt32) {k : κ} {v : ν}
    (hget : Library.dictGet d k = some v) (new : ν) (f : ν → ν) :
    t.getOrCreate hash cap k new = some (t.touch k, v, false) ∧
      ((t.touch k).set hash k (f v)).Tracks hash ((d.filter fun e => e.1 ≠ k) ++ [(k, f v)]) joins := by
  obtain ⟨m, hrep, rfl, hsize, hjoins⟩ := h
  rw [hrep.dictGet, hrep.find] at hget
  obtain ⟨hcreate, hrep'⟩ := hrep.getOrCreate_hit cap hget new
  have hk : k ∈ m.lru := hrep.wf.get_isSome_iff.mp (by rw [hget]; rfl)
  have hlen : ((m.touch k).set hash k (f v)).buckets.length = m.buckets.length :=
    List.length_modify _ _ _
  refine ⟨hcreate, (m.touch k).set hash k (f v), hrep'.set k (f v),
    hrep.wf.toList_set_touch hk (f v), ?_, ?_⟩
  · rw [hlen]
    exact hsize
  · rw [hlen, hjoins]

/-- **A new key** joins the entries, unless the table has outgrown its chains and a quarter of them
is full. -/
theorem Tracks.use_miss (h : t.Tracks hash d joins) {cap : UInt32} (hcap : 0 < cap) {k : κ}
    (hget : Library.dictGet d k = none) (new : ν) (f : ν → ν) :
    let n := if cap.toNat ≤ d.length then d.length - 1 else d.length
    (Outgrown joins ∧ 2 ^ 29 ≤ n → t.getOrCreate hash cap k new = none) ∧
    (¬ (Outgrown joins ∧ 2 ^ 29 ≤ n) →
      ∃ t', t.getOrCreate hash cap k new = some (t', new, decide (cap.toNat ≤ d.length)) ∧
        (t'.set hash k (f new)).Tracks hash
          ((if cap.toNat ≤ d.length then d.tail else d) ++ [(k, f new)]) (joins ++ [n])) := by
  obtain ⟨m, hrep, rfl, hsize, hjoins⟩ := h
  rw [hrep.dictGet, hrep.find] at hget
  have hpos : 0 < cap.toNat := UInt32.lt_iff_toNat_lt.mp hcap
  obtain ⟨hrep₁, hcreate⟩ := hrep.getOrCreate_miss cap hget new
  obtain ⟨hwf, hlen, hcount, hlru⟩ := makeWay_spec hrep.wf cap.toNat
  have htail := toList_makeWay hrep.wf hpos
  have hk : k ∉ (makeWay hash cap.toNat m).lru := fun hmem =>
    hrep.wf.get_eq_none_iff.mp hget (hlru k hmem)
  have hn : (makeWay hash cap.toNat m).count =
      if cap.toNat ≤ (m.toList hash).length then (m.toList hash).length - 1
      else (m.toList hash).length := by
    rw [← hwf.length_toList, htail]
    split
    · exact List.length_tail
    · rfl
  obtain ⟨hnone, hsome⟩ := hrep₁.join (hlen ▸ hsize.mono hcount) hk new
  rw [hlen, hjoins, hn] at hnone hsome
  dsimp only
  rw [hcreate, full_eq hrep.wf hpos]
  rw [full_eq hrep.wf hpos] at hnone hsome
  refine ⟨fun hout => ?_, fun hnot => ?_⟩
  · rw [hnone hout]
    rfl
  · obtain ⟨t', hins, hrep', hsize', hjoins'⟩ := hsome hnot
    rw [hins]
    refine ⟨t', rfl, ((makeWay hash cap.toNat m).insert hash k new).set hash k (f new),
      hrep'.set k (f new), ?_, ?_, ?_⟩
    · rw [toList_set_insert hwf hk, htail]
    · rw [HashLru.set, List.length_modify]
      exact hsize'
    · rw [HashLru.set, List.length_modify, hjoins']
      simp only [Outgrown, List.mem_append, List.mem_singleton, or_and_right, exists_or,
        exists_eq_left]

/-! ## Runs

A program's operations are put together from the ones above.  `Implements` is what such an operation
has to satisfy, and the theorems on runs are about any list of operations that do. -/

/-- The chains of a table are enough: no new key joins 2^29 entries or more once one has joined
3 * 2^28 or more. -/
def ChainsFit (joins : List ℕ) : Prop := joins.Pairwise fun a b => ¬ (3 * 2 ^ 28 ≤ a ∧ 2 ^ 29 ≤ b)

theorem chainsFit_concat {joins : List ℕ} {n : ℕ} :
    ChainsFit (joins ++ [n]) ↔ ChainsFit joins ∧ ¬ (Outgrown joins ∧ 2 ^ 29 ≤ n) := by
  rw [ChainsFit, ChainsFit, List.pairwise_append]
  refine and_congr_right fun _ => ⟨fun h => ?_, fun h => ⟨List.pairwise_singleton _ _, ?_⟩⟩
  · rintro ⟨⟨a, ha, hbig⟩, hn⟩
    exact h.2 a ha n (List.mem_singleton_self n) ⟨hbig, hn⟩
  · intro a ha b hb
    rw [List.mem_singleton.mp hb]
    exact fun hboth => h ⟨⟨a, ha, hboth.1⟩, hboth.2⟩

/-- New keys that never join 3 * 2^28 entries fit. -/
theorem chainsFit_of_lt {joins : List ℕ} (h : ∀ n ∈ joins, n < 3 * 2 ^ 28) : ChainsFit joins :=
  List.pairwise_iff_forall_sublist.mpr fun hab hboth =>
    absurd hboth.1 (Nat.not_le_of_lt (h _ (hab.subset List.mem_cons_self)))

/-- **A key is used**, as long as the chains fit. -/
theorem Tracks.use (h : t.Tracks hash d joins) (hjoins : ChainsFit joins) {cap : UInt32}
    (hcap : 0 < cap) (k : κ) (new : ν) (f : ν → ν) :
    let u := dictUse cap.toNat k new f d
    (ChainsFit (joins ++ dictJoins cap.toNat k d) →
      ∃ t', t.getOrCreate hash cap k new = some (t', u.2) ∧
        (t'.set hash k (f u.2.1)).Tracks hash u.1 (joins ++ dictJoins cap.toNat k d)) ∧
    (¬ ChainsFit (joins ++ dictJoins cap.toNat k d) → t.getOrCreate hash cap k new = none) := by
  rw [dictUse, dictJoins]
  cases hget : Library.dictGet d k with
  | some v =>
    obtain ⟨hcreate, htracks⟩ := h.use_hit cap hget new f
    dsimp only
    rw [List.append_nil]
    exact ⟨fun _ => ⟨_, hcreate, htracks⟩, fun hnot => absurd hjoins hnot⟩
  | none =>
    obtain ⟨hnone, hsome⟩ := h.use_miss hcap hget new f
    dsimp only
    rw [chainsFit_concat, and_iff_right hjoins, not_not]
    refine ⟨fun hfit => ?_, hnone⟩
    obtain ⟨t', hcreate, htracks⟩ := hsome hfit
    refine ⟨t', hcreate, ?_⟩
    simp only [decide_eq_true_eq]
    exact htracks

section Runs

variable {α β : Type}

/-- Operations on a table, one after the other, with what each of them returns. -/
def run (step : LruTable κ ν → α → Option (LruTable κ ν × β)) (t : LruTable κ ν) :
    List α → Option (LruTable κ ν × List β)
  | [] => some (t, [])
  | a :: as => (step t a).bind fun p => (run step p.1 as).map fun q => (q.1, p.2 :: q.2)

omit [DecidableEq κ] in
/-- One more operation. -/
theorem run_concat {step : LruTable κ ν → α → Option (LruTable κ ν × β)} {as : List α} {a : α}
    {t t' t'' : LruTable κ ν} {bs : List β} {b : β} (hrun : run step t as = some (t', bs))
    (hstep : step t' a = some (t'', b)) : run step t (as ++ [a]) = some (t'', bs ++ [b]) := by
  induction as generalizing t bs with
  | nil =>
    cases hrun
    rw [List.nil_append, run, hstep]
    rfl
  | cons a' as ih =>
    rw [run] at hrun
    obtain ⟨p, hp, hrest⟩ := Option.bind_eq_some_iff.mp hrun
    obtain ⟨q, hq, heq⟩ := Option.map_eq_some_iff.mp hrest
    cases heq
    rw [List.cons_append, run, hp, Option.bind_some, ih hq]
    rfl

end Runs

end LruTable

section Runs

variable {κ ν α β : Type}

/-- Operations on a dictionary, one after the other, with what each of them returns. -/
def dictRun (spec : List (κ × ν) → α → List (κ × ν) × β) (d : List (κ × ν)) :
    List α → List (κ × ν) × List β
  | [] => (d, [])
  | a :: as => ((dictRun spec (spec d a).1 as).1, (spec d a).2 :: (dictRun spec (spec d a).1 as).2)

/-- How many entries the new keys of the operations join. -/
def joinsRun (spec : List (κ × ν) → α → List (κ × ν) × β) (joins : List (κ × ν) → α → List ℕ)
    (d : List (κ × ν)) : List α → List ℕ
  | [] => []
  | a :: as => joins d a ++ joinsRun spec joins (spec d a).1 as

end Runs

namespace LruTable

variable {κ ν α β : Type} [DecidableEq κ]

/-- An operation does to every table what `spec` does to its dictionary, as long as the chains fit. -/
def Implements (hash : κ → UInt64) (step : LruTable κ ν → α → Option (LruTable κ ν × β))
    (spec : List (κ × ν) → α → List (κ × ν) × β) (joins : List (κ × ν) → α → List ℕ) : Prop :=
  ∀ (t : LruTable κ ν) d js a, t.Tracks hash d js → ChainsFit js →
    (ChainsFit (js ++ joins d a) → ∃ t', step t a = some (t', (spec d a).2) ∧
      t'.Tracks hash (spec d a).1 (js ++ joins d a)) ∧
    (¬ ChainsFit (js ++ joins d a) → step t a = none)

variable {hash : κ → UInt64} {step : LruTable κ ν → α → Option (LruTable κ ν × β)}
  {spec : List (κ × ν) → α → List (κ × ν) × β} {joins : List (κ × ν) → α → List ℕ}

/-- **A run of operations does what the run of the dictionary does**, as long as the chains fit, and
nothing beyond that. -/
theorem Implements.run (h : Implements hash step spec joins) (as : List α) {t : LruTable κ ν}
    {d : List (κ × ν)} {js : List ℕ} (ht : t.Tracks hash d js) (hjs : ChainsFit js) :
    (ChainsFit (js ++ joinsRun spec joins d as) →
      ∃ t', t.run step as = some (t', (dictRun spec d as).2) ∧
        t'.Tracks hash (dictRun spec d as).1 (js ++ joinsRun spec joins d as)) ∧
    (¬ ChainsFit (js ++ joinsRun spec joins d as) → t.run step as = none) := by
  induction as generalizing t d js with
  | nil =>
    rw [joinsRun, List.append_nil]
    exact ⟨fun _ => ⟨t, rfl, ht⟩, fun hnot => absurd hjs hnot⟩
  | cons a as ih =>
    obtain ⟨hfits, hwraps⟩ := h t d js a ht hjs
    rw [joinsRun, ← List.append_assoc, LruTable.run]
    by_cases hfit : ChainsFit (js ++ joins d a)
    · obtain ⟨t', hstep, ht'⟩ := hfits hfit
      obtain ⟨hrest, hrest'⟩ := ih ht' hfit
      rw [hstep, Option.bind_some]
      refine ⟨fun hall => ?_, fun hnot => ?_⟩
      · obtain ⟨t'', hrun, ht''⟩ := hrest hall
        rw [hrun]
        exact ⟨t'', rfl, ht''⟩
      · rw [hrest' hnot]
        rfl
    · have hnot : ¬ ChainsFit (js ++ joins d a ++ joinsRun spec joins (spec d a).1 as) := fun hall =>
        hfit (List.Pairwise.sublist (List.sublist_append_left _ _) hall)
      rw [hwraps hfit]
      exact ⟨fun hall => absurd hall hnot, fun _ => rfl⟩

/-- An operation that returns does what `spec` does. -/
theorem Implements.of_step (h : Implements hash step spec joins) {t t' : LruTable κ ν}
    {d : List (κ × ν)} {js : List ℕ} {a : α} {b : β} (ht : t.Tracks hash d js) (hjs : ChainsFit js)
    (hstep : step t a = some (t', b)) :
    b = (spec d a).2 ∧ ∃ js', ChainsFit js' ∧ t'.Tracks hash (spec d a).1 js' := by
  obtain ⟨hfits, hwraps⟩ := h t d js a ht hjs
  by_cases hfit : ChainsFit (js ++ joins d a)
  · obtain ⟨t₁, hstep₁, ht₁⟩ := hfits hfit
    cases hstep.symm.trans hstep₁
    exact ⟨rfl, _, hfit, ht₁⟩
  · rw [hwraps hfit] at hstep
    exact absurd hstep (Option.some_ne_none _).symm

/-- Operations on a new table that return leave the table of a dictionary. -/
theorem Implements.of_run (h : Implements hash step spec joins) {as : List α} {t : LruTable κ ν}
    {bs : List β} (hrun : LruTable.run step empty as = some (t, bs)) :
    ∃ js, ChainsFit js ∧ t.Tracks hash (dictRun spec [] as).1 js := by
  obtain ⟨hfits, hwraps⟩ := h.run as tracks_empty .nil
  by_cases hfit : ChainsFit ([] ++ joinsRun spec joins [] as)
  · obtain ⟨t₁, hrun₁, ht₁⟩ := hfits hfit
    cases hrun.symm.trans hrun₁
    exact ⟨_, hfit, ht₁⟩
  · rw [hwraps hfit] at hrun
    exact absurd hrun (Option.some_ne_none _).symm

/-- **Exactly as long as the chains fit**, the operations on a new table return what they return on
the dictionary, and leave its entries. -/
theorem Implements.run_iff (h : Implements hash step spec joins) (as : List α) :
    (∃ t, LruTable.run step empty as = some (t, (dictRun spec [] as).2) ∧
      t.contents hash = (dictRun spec [] as).1) ↔ ChainsFit (joinsRun spec joins [] as) := by
  obtain ⟨hfits, hwraps⟩ := h.run as tracks_empty .nil
  rw [List.nil_append] at hfits hwraps
  constructor
  · rintro ⟨t, hrun, -⟩
    by_contra hnot
    rw [hwraps hnot] at hrun
    exact absurd hrun (Option.some_ne_none _).symm
  · intro hfit
    obtain ⟨t, hrun, ht⟩ := hfits hfit
    exact ⟨t, hrun, ht.contents⟩

end LruTable

end LibSigma.Library
