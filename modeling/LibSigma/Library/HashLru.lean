import Mathlib.Algebra.Group.Nat.Defs
import Mathlib.Data.List.Perm.Basic
import Mathlib.Data.List.Nodup
import Mathlib.Data.List.Flatten

/-!
# Hash maps with a recency list

A map with chained buckets whose entries are also threaded in order of use.  The hash function is a
parameter and may collide.

## Two structures for one set

The chains hold the entries and the recency list holds their keys.  That both speak of the same keys
is the invariant (`HashLru.Wf`), together with each entry being in the chain of its hash and no key
being there twice.  The count is a field of the map, as programs keep it, and the invariant says
that it is right.

## How operations are described

Each operation has two descriptions.  One is by keys: what `get` answers afterwards, for every key.
It is enough for a caller who uses the map as a map.  The other is by the list of entries in order
of use: what is first, what is evicted next, in what order a walk meets the entries.  A caller who
evicts or expires needs that one.  Neither mentions chains.

## Caps and tables

A map with a cap evicts before it inserts, and so never holds more than the cap.  Its table doubles
when it is three quarters full, and is never more than about three times as large as the cap asks
for; `HashLru.Within` is both, and all operations keep it.

* `HashLru.Wf`: every entry is in the chain of its hash, keys occur once, and the recency list holds
  the same keys.
* `HashLru.get_*`: what each operation does to the entry of every key.
* `HashLru.toList_*`: what it does to the entries in order of use, oldest first.
* `HashLru.Within.*`: a map whose insertions evict at a cap stays within it, and so does its table.
-/

namespace LibSigma.Library

/-- An entry: its key, the hash it was filed under, and its value. -/
structure HashNode (κ ν : Type) where
  key : κ
  hash : UInt64
  val : ν

/-- A hash map with a recency list, least recently used first. -/
structure HashLru (κ ν : Type) where
  buckets : List (List (HashNode κ ν))
  lru : List κ
  count : ℕ

namespace HashLru

variable {κ ν : Type}

/-- The chain of a hash, among `n` chains. -/
def slotOf (n : ℕ) (h : UInt64) : ℕ := h.toNat &&& (n - 1)

/-- The empty map with `n` chains. -/
def empty (n : ℕ) : HashLru κ ν := ⟨List.replicate n [], [], 0⟩

/-- All entries, chain by chain. -/
def nodes (m : HashLru κ ν) : List (HashNode κ ν) := m.buckets.flatten

/-- The entries refiled among `n` chains, each put in front of its chain. -/
def refile (n : ℕ) (nds : List (HashNode κ ν)) : List (List (HashNode κ ν)) :=
  nds.foldl (fun bs nd => bs.modify (slotOf n nd.hash) (nd :: ·)) (List.replicate n [])

/-- Twice as many chains. -/
def grow (m : HashLru κ ν) : HashLru κ ν :=
  { m with buckets := refile (2 * m.buckets.length) m.nodes }

/-! ## Well-formed maps

The invariant, and what follows from it at once: a chain has the entries of its hash and no others,
and an entry is determined by its key. -/

section Wf

variable (hash : κ → UInt64) (m : HashLru κ ν)

/-- Every entry is in the chain of its hash, keys occur once, the recency list holds the keys of
the entries, and the count is theirs. -/
structure Wf : Prop where
  pos : 0 < m.buckets.length
  placed : ∀ i b, m.buckets[i]? = some b → ∀ nd ∈ b,
    nd.hash = hash nd.key ∧ slotOf m.buckets.length nd.hash = i
  nodup : (m.nodes.map HashNode.key).Nodup
  lru_perm : m.lru.Perm (m.nodes.map HashNode.key)
  count_eq : m.count = m.lru.length

theorem slotOf_lt {n : ℕ} (hn : 0 < n) (h : UInt64) : slotOf n h < n := by
  have hle : h.toNat &&& (n - 1) ≤ n - 1 := Nat.and_le_right
  rw [slotOf]
  omega

variable {hash m}

theorem Wf.lru_nodup (h : m.Wf hash) : m.lru.Nodup := h.lru_perm.nodup_iff.mpr h.nodup

/-- An entry lies in the chain of the hash of its key. -/
theorem Wf.mem_chain (h : m.Wf hash) {nd : HashNode κ ν} (hnd : nd ∈ m.nodes) :
    ∃ b, m.buckets[slotOf m.buckets.length (hash nd.key)]? = some b ∧ nd ∈ b := by
  obtain ⟨b, hb, hmem⟩ := List.mem_flatten.mp hnd
  obtain ⟨i, hi⟩ := List.mem_iff_getElem?.mp hb
  obtain ⟨hhash, hslot⟩ := h.placed i b hi nd hmem
  exact ⟨b, by rw [← hhash, hslot, hi], hmem⟩

/-- Two entries with one key are one entry. -/
theorem Wf.node_unique (h : m.Wf hash) {nd nd' : HashNode κ ν} (hnd : nd ∈ m.nodes)
    (hnd' : nd' ∈ m.nodes) (hkey : nd.key = nd'.key) : nd = nd' :=
  List.inj_on_of_nodup_map h.nodup hnd hnd' hkey

/-! ## The chains

Growing files all entries anew in twice as many chains.  Nothing about a map changes by it but the
chains. -/

theorem mem_flatten_modify_cons {bs : List (List (HashNode κ ν))} {i : ℕ} (hi : i < bs.length)
    (nd : HashNode κ ν) : (bs.modify i (nd :: ·)).flatten.Perm (nd :: bs.flatten) := by
  induction bs generalizing i with
  | nil => exact absurd hi (by simp)
  | cons b bs ih =>
    cases i with
    | zero => simp
    | succ i =>
      rw [List.modify_succ_cons, List.flatten_cons, List.flatten_cons]
      exact ((ih (by simpa using hi)).append_left b).trans List.perm_middle

/-- Filing an entry in the chain of its hash. -/
theorem placed_modify_cons {bs : List (List (HashNode κ ν))} {n : ℕ} (nd : HashNode κ ν)
    (h : ∀ i b, bs[i]? = some b → ∀ nd ∈ b, nd.hash = hash nd.key ∧ slotOf n nd.hash = i)
    (hnd : nd.hash = hash nd.key) :
    ∀ i b, (bs.modify (slotOf n nd.hash) (nd :: ·))[i]? = some b → ∀ nd ∈ b,
      nd.hash = hash nd.key ∧ slotOf n nd.hash = i := by
  intro i b hb nd' hnd'
  rw [List.getElem?_modify] at hb
  obtain ⟨b₀, hb₀, rfl⟩ := Option.map_eq_some_iff.mp hb
  split at hnd'
  · rename_i hi
    rcases List.mem_cons.mp hnd' with rfl | hmem
    · exact ⟨hnd, hi⟩
    · exact h i b₀ hb₀ nd' hmem
  · exact h i b₀ hb₀ nd' hnd'

/-- Refiling keeps the entries and puts each in the chain of its hash. -/
theorem refile_spec {n : ℕ} (hn : 0 < n) {nds : List (HashNode κ ν)}
    (hhash : ∀ nd ∈ nds, nd.hash = hash nd.key) :
    (refile n nds).length = n ∧ (refile n nds).flatten.Perm nds ∧
      ∀ i b, (refile n nds)[i]? = some b → ∀ nd ∈ b,
        nd.hash = hash nd.key ∧ slotOf n nd.hash = i := by
  have hfold : ∀ (nds : List (HashNode κ ν)) (bs : List (List (HashNode κ ν))),
      (∀ nd ∈ nds, nd.hash = hash nd.key) → bs.length = n →
      (∀ i b, bs[i]? = some b → ∀ nd ∈ b, nd.hash = hash nd.key ∧ slotOf n nd.hash = i) →
      (nds.foldl (fun bs nd => bs.modify (slotOf n nd.hash) (nd :: ·)) bs).length = n ∧
        (nds.foldl (fun bs nd => bs.modify (slotOf n nd.hash) (nd :: ·)) bs).flatten.Perm
          (nds ++ bs.flatten) ∧
        ∀ i b, (nds.foldl (fun bs nd => bs.modify (slotOf n nd.hash) (nd :: ·)) bs)[i]? = some b →
          ∀ nd ∈ b, nd.hash = hash nd.key ∧ slotOf n nd.hash = i := by
    intro nds
    induction nds with
    | nil => exact fun bs _ hlen hplaced => ⟨hlen, .rfl, hplaced⟩
    | cons nd nds ih =>
      intro bs hhash hlen hplaced
      have hnd := hhash nd List.mem_cons_self
      have hslot := slotOf_lt hn nd.hash
      obtain ⟨hlen', hperm, hplaced'⟩ := ih (bs.modify (slotOf n nd.hash) (nd :: ·))
        (fun nd' hnd' => hhash nd' (List.mem_cons_of_mem _ hnd')) (by rw [List.length_modify, hlen])
        (placed_modify_cons nd hplaced hnd)
      refine ⟨hlen', hperm.trans ?_, hplaced'⟩
      exact ((mem_flatten_modify_cons (by rw [hlen]; exact hslot) nd).append_left nds).trans
        List.perm_middle
  obtain ⟨hlen, hperm, hplaced⟩ := hfold nds (List.replicate n []) hhash List.length_replicate
    (by
      intro i b hb nd hnd
      rw [List.eq_of_mem_replicate (List.mem_of_getElem? hb)] at hnd
      exact absurd hnd List.not_mem_nil)
  refine ⟨hlen, ?_, hplaced⟩
  have hnil : (List.replicate n ([] : List (HashNode κ ν))).flatten = [] := by simp
  rw [hnil, List.append_nil] at hperm
  exact hperm

theorem wf_empty {n : ℕ} (hn : 0 < n) : (empty n : HashLru κ ν).Wf hash := by
  have hnodes : (empty n : HashLru κ ν).nodes = [] := by simp [nodes, empty]
  refine ⟨by simpa [empty] using hn, ?_, by rw [hnodes]; exact .nil, by rw [hnodes]; exact .nil,
    rfl⟩
  intro i b hb nd hnd
  rw [List.eq_of_mem_replicate (List.mem_of_getElem? hb)] at hnd
  exact absurd hnd List.not_mem_nil

/-- An entry was filed under the hash of its key. -/
theorem Wf.hash_eq (h : m.Wf hash) {nd : HashNode κ ν} (hnd : nd ∈ m.nodes) :
    nd.hash = hash nd.key := by
  obtain ⟨b, hb, hmem⟩ := h.mem_chain hnd
  exact (h.placed _ b hb nd hmem).1

theorem Wf.grow (h : m.Wf hash) : m.grow.Wf hash ∧ m.grow.nodes.Perm m.nodes := by
  have hpos : 0 < 2 * m.buckets.length := by have := h.pos; omega
  obtain ⟨hlen, hperm, hplaced⟩ := refile_spec hpos fun _ hnd => h.hash_eq hnd
  have hkeys := hperm.map HashNode.key
  refine ⟨⟨hlen ▸ hpos, ?_, hkeys.nodup_iff.mpr h.nodup, h.lru_perm.trans hkeys.symm, h.count_eq⟩,
    hperm⟩
  intro i b hb nd hnd
  rw [show m.grow.buckets.length = 2 * m.buckets.length from hlen]
  exact hplaced i b hb nd hnd

theorem Wf.length_grow (h : m.Wf hash) : m.grow.buckets.length = 2 * m.buckets.length := by
  have hpos : 0 < 2 * m.buckets.length := by have := h.pos; omega
  exact (refile_spec hpos fun _ hnd => h.hash_eq hnd).1

/-- A chain is changed: the entries of the others stay, so those not of this hash do. -/
theorem Wf.nodes_modify (h : m.Wf hash) (k : κ) {f : List (HashNode κ ν) → List (HashNode κ ν)}
    {g : List (HashNode κ ν) → List (HashNode κ ν)} (happ : ∀ xs ys, g (xs ++ ys) = g xs ++ g ys)
    (hnil : g [] = []) (hin : ∀ b, f b = g b)
    (hout : ∀ b, (∀ nd ∈ b, nd.key ≠ k) → g b = b) :
    (m.buckets.modify (slotOf m.buckets.length (hash k)) f).flatten = g m.nodes := by
  have hall : ∀ (bs : List (List (HashNode κ ν))) (i : ℕ),
      (∀ j b, bs[j]? = some b → j ≠ i → ∀ nd ∈ b, nd.key ≠ k) →
      (bs.modify i f).flatten = g bs.flatten := by
    intro bs
    induction bs with
    | nil => exact fun i _ => by simpa using hnil.symm
    | cons b bs ih =>
      intro i hother
      cases i with
      | zero =>
        have hrest : g bs.flatten = bs.flatten := hout _ fun nd hnd => by
          obtain ⟨b', hb', hmem⟩ := List.mem_flatten.mp hnd
          obtain ⟨j, hj⟩ := List.mem_iff_getElem?.mp hb'
          exact hother (j + 1) b' (by simpa using hj) (by omega) nd hmem
        rw [List.modify_zero_cons, List.flatten_cons, List.flatten_cons, happ, hrest, hin]
      | succ i =>
        have hb : g b = b := hout _ (hother 0 b rfl (by omega))
        rw [List.modify_succ_cons, List.flatten_cons, List.flatten_cons, happ, hb,
          ih i fun j b' hb' hj => hother (j + 1) b' (by simpa using hb') (by omega)]
  refine hall m.buckets _ fun j b hb hj nd hnd hkey => hj ?_
  obtain ⟨hhash, hslot⟩ := h.placed j b hb nd hnd
  rw [← hslot, hhash, hkey]

/-- Entries that stay in their chains with their keys are well placed. -/
theorem Wf.placed_modify (h : m.Wf hash) (i : ℕ) {f : List (HashNode κ ν) → List (HashNode κ ν)}
    (hf : ∀ b, ∀ nd ∈ f b, ∃ nd₀ ∈ b, nd.key = nd₀.key ∧ nd.hash = nd₀.hash) :
    ∀ j b, (m.buckets.modify i f)[j]? = some b → ∀ nd ∈ b,
      nd.hash = hash nd.key ∧ slotOf (m.buckets.modify i f).length nd.hash = j := by
  intro j b hb nd hnd
  rw [List.getElem?_modify] at hb
  obtain ⟨b₀, hb₀, rfl⟩ := Option.map_eq_some_iff.mp hb
  rw [List.length_modify]
  split at hnd
  · obtain ⟨nd₀, hnd₀, hkey, hhash⟩ := hf b₀ nd hnd
    rw [hkey, hhash]
    exact h.placed j b₀ hb₀ nd₀ hnd₀
  · exact h.placed j b₀ hb₀ nd hnd

/-- The map an insertion files its entry in. -/
def room (m : HashLru κ ν) : HashLru κ ν :=
  if m.buckets.length * 3 / 4 < m.count + 1 then m.grow else m

theorem Wf.room (h : m.Wf hash) : m.room.Wf hash ∧ m.room.nodes.Perm m.nodes ∧
    m.room.lru = m.lru ∧ m.room.count = m.count := by
  unfold HashLru.room
  split
  · exact ⟨h.grow.1, h.grow.2, rfl, rfl⟩
  · exact ⟨h, .rfl, rfl, rfl⟩

end Wf

/-! ## Operations -/

variable (hash : κ → UInt64) (m : HashLru κ ν)

/-- A new entry, put in front of its chain; the map grows first when it is three quarters full. -/
def insert (k : κ) (v : ν) : HashLru κ ν :=
  let m := m.room
  { buckets := m.buckets.modify (slotOf m.buckets.length (hash k)) (⟨k, hash k, v⟩ :: ·)
    lru := m.lru ++ [k]
    count := m.count + 1 }

variable [DecidableEq κ]

/-- The value of a key: the first entry of its chain with its hash and its key. -/
def get (k : κ) : Option ν :=
  ((m.buckets.getD (slotOf m.buckets.length (hash k)) []).find? fun nd =>
    decide (nd.hash = hash k) && decide (nd.key = k)).map HashNode.val

/-- The key becomes the most recently used. -/
def touch (k : κ) : HashLru κ ν := { m with lru := m.lru.erase k ++ [k] }

/-- The value of a key is replaced. -/
def set (k : κ) (v : ν) : HashLru κ ν :=
  { m with
    buckets := m.buckets.modify (slotOf m.buckets.length (hash k))
      (·.map fun nd => if nd.key = k then { nd with val := v } else nd) }

/-- The entry of a key is unlinked. -/
def remove (k : κ) : HashLru κ ν where
  buckets := m.buckets.modify (slotOf m.buckets.length (hash k)) (·.filter fun nd => nd.key ≠ k)
  lru := m.lru.erase k
  count := m.count - 1

/-- The least recently used entry is removed. -/
def evict : HashLru κ ν :=
  match m.lru with
  | [] => m
  | k :: _ => m.remove hash k

/-- One step of the walk along the recency list. -/
def dropStep (p : ν → Bool) (m : HashLru κ ν) (k : κ) : HashLru κ ν :=
  if (m.get hash k).any p then m.remove hash k else m

/-- The entries whose value satisfies `p` are removed. -/
def dropWhere (p : ν → Bool) : HashLru κ ν := m.lru.foldl (dropStep hash p) m

/-- The entries in order of use, oldest first. -/
def toList : List (κ × ν) := m.lru.filterMap fun k => (m.get hash k).map (k, ·)

variable {hash m}

/-! ## Lookups

What `get` answers after each operation.  The lemmas are equations for all keys, so that composing
operations is rewriting. -/

/-- **Looking a key up finds the entry with that key.** -/
theorem Wf.get_eq_some_iff (h : m.Wf hash) {k : κ} {v : ν} :
    m.get hash k = some v ↔ ∃ nd ∈ m.nodes, nd.key = k ∧ nd.val = v := by
  rw [get, Option.map_eq_some_iff]
  constructor
  · intro hfind
    obtain ⟨nd, hnd, hval⟩ := hfind
    have hmem := List.mem_of_find?_eq_some hnd
    have hprop := List.find?_some hnd
    simp only [Bool.and_eq_true, decide_eq_true_eq] at hprop
    refine ⟨nd, ?_, hprop.2, hval⟩
    rw [List.getD_eq_getElem?_getD] at hmem
    cases hb : m.buckets[slotOf m.buckets.length (hash k)]? with
    | none =>
      rw [hb] at hmem
      exact absurd hmem List.not_mem_nil
    | some b =>
      rw [hb] at hmem
      exact List.mem_flatten.mpr ⟨b, List.mem_of_getElem? hb, hmem⟩
  · intro hex
    obtain ⟨nd, hnd, rfl, hval⟩ := hex
    obtain ⟨b, hb, hmem⟩ := h.mem_chain hnd
    obtain ⟨hhash, -⟩ := h.placed _ b hb nd hmem
    rw [List.getD_eq_getElem?_getD, hb, Option.getD_some]
    have hsome : (b.find? fun nd' => decide (nd'.hash = hash nd.key) && decide (nd'.key = nd.key)).isSome
        = true := by
      rw [List.find?_isSome]
      exact ⟨nd, hmem, by simp [hhash]⟩
    obtain ⟨nd', hnd'⟩ := Option.isSome_iff_exists.mp hsome
    have hprop := List.find?_some hnd'
    simp only [Bool.and_eq_true, decide_eq_true_eq] at hprop
    have hmem' : nd' ∈ m.nodes := List.mem_flatten.mpr
      ⟨b, List.mem_of_getElem? hb, List.mem_of_find?_eq_some hnd'⟩
    exact ⟨nd', hnd', by rw [h.node_unique hmem' hnd hprop.2, hval]⟩

theorem Wf.get_eq_none_iff (h : m.Wf hash) {k : κ} : m.get hash k = none ↔ k ∉ m.lru := by
  rw [h.lru_perm.mem_iff, List.mem_map, Option.eq_none_iff_forall_ne_some]
  constructor
  · intro hnone hex
    obtain ⟨nd, hnd, hkey⟩ := hex
    exact hnone nd.val (h.get_eq_some_iff.mpr ⟨nd, hnd, hkey, rfl⟩)
  · intro hnone v hv
    obtain ⟨nd, hnd, hkey, -⟩ := h.get_eq_some_iff.mp hv
    exact hnone ⟨nd, hnd, hkey⟩

@[simp] theorem get_empty (n : ℕ) (k : κ) : (empty n : HashLru κ ν).get hash k = none := by
  rw [get, empty, List.getD_eq_getElem?_getD]
  cases hb : (List.replicate n ([] : List (HashNode κ ν)))[
      slotOf (List.replicate n ([] : List (HashNode κ ν))).length (hash k)]? with
  | none => rfl
  | some b =>
    rw [List.eq_of_mem_replicate (List.mem_of_getElem? hb)]
    rfl

/-! ### Use -/

@[simp] theorem get_touch (k k' : κ) : (m.touch k).get hash k' = m.get hash k' := rfl

theorem Wf.touch (h : m.Wf hash) {k : κ} (hk : k ∈ m.lru) : (m.touch k).Wf hash := by
  have hperm : (m.lru.erase k ++ [k]).Perm m.lru :=
    List.perm_append_comm.trans (List.perm_cons_erase hk).symm
  exact ⟨h.pos, h.placed, h.nodup, hperm.trans h.lru_perm, h.count_eq.trans hperm.length_eq.symm⟩

/-! ### Update -/

theorem Wf.nodes_set (h : m.Wf hash) (k : κ) (v : ν) :
    (m.set hash k v).nodes = m.nodes.map fun nd => if nd.key = k then { nd with val := v } else nd := by
  refine h.nodes_modify k (fun xs ys => List.map_append) rfl (fun _ => rfl) fun b hb => ?_
  conv_rhs => rw [← List.map_id b]
  exact List.map_congr_left fun nd hnd => if_neg (hb nd hnd)

theorem Wf.set (h : m.Wf hash) (k : κ) (v : ν) : (m.set hash k v).Wf hash := by
  have hkeys : (m.set hash k v).nodes.map HashNode.key = m.nodes.map HashNode.key := by
    rw [h.nodes_set, List.map_map]
    refine List.map_congr_left fun nd _ => ?_
    rw [Function.comp_apply]
    split <;> rfl
  refine ⟨by simpa [HashLru.set] using h.pos, h.placed_modify _ ?_, hkeys ▸ h.nodup,
    hkeys ▸ h.lru_perm, h.count_eq⟩
  intro b nd hnd
  obtain ⟨nd₀, hnd₀, rfl⟩ := List.mem_map.mp hnd
  refine ⟨nd₀, hnd₀, ?_, ?_⟩ <;> split <;> rfl

theorem Wf.get_set (h : m.Wf hash) (k : κ) (v : ν) (k' : κ) :
    (m.set hash k v).get hash k' =
      if k' = k then (m.get hash k).map fun _ => v else m.get hash k' := by
  ext w
  rw [(h.set k v).get_eq_some_iff, h.nodes_set]
  constructor
  · intro hex
    obtain ⟨nd, hnd, rfl, rfl⟩ := hex
    obtain ⟨nd₀, hnd₀, rfl⟩ := List.mem_map.mp hnd
    by_cases hkey : nd₀.key = k
    · rw [if_pos hkey, if_pos hkey,
        h.get_eq_some_iff.mpr ⟨nd₀, hnd₀, hkey, rfl⟩]
      rfl
    · rw [if_neg hkey, if_neg hkey]
      exact h.get_eq_some_iff.mpr ⟨nd₀, hnd₀, rfl, rfl⟩
  · intro hget
    by_cases hkey : k' = k
    · rw [if_pos hkey] at hget
      obtain ⟨v₀, hv₀, rfl⟩ := Option.map_eq_some_iff.mp hget
      obtain ⟨nd, hnd, hk, -⟩ := h.get_eq_some_iff.mp hv₀
      refine ⟨_, List.mem_map.mpr ⟨nd, hnd, rfl⟩, ?_, ?_⟩
      · rw [if_pos hk, hkey]
        exact hk
      · rw [if_pos hk]
    · rw [if_neg hkey] at hget
      obtain ⟨nd, hnd, hk, hval⟩ := h.get_eq_some_iff.mp hget
      have hne : nd.key ≠ k := hk ▸ hkey
      exact ⟨_, List.mem_map.mpr ⟨nd, hnd, rfl⟩, by rw [if_neg hne]; exact hk, by
        rw [if_neg hne]; exact hval⟩

/-- Replacing a value by itself changes nothing. -/
theorem Wf.set_self (h : m.Wf hash) {k : κ} {v : ν} (hget : m.get hash k = some v) :
    m.set hash k v = m := by
  obtain ⟨nd₀, hnd₀, hkey₀, hval₀⟩ := h.get_eq_some_iff.mp hget
  have hsame : ∀ nd ∈ m.nodes, (if nd.key = k then { nd with val := v } else nd) = nd := by
    intro nd hnd
    split
    · rename_i hkey
      rw [h.node_unique hnd hnd₀ (hkey.trans hkey₀.symm), ← hval₀]
    · rfl
  have hbuckets : (m.set hash k v).buckets = m.buckets := by
    refine List.ext_getElem? fun i => ?_
    rw [HashLru.set, List.getElem?_modify]
    cases hb : m.buckets[i]? with
    | none => rfl
    | some b =>
      have hmem : ∀ nd ∈ b, nd ∈ m.nodes := fun nd hnd =>
        List.mem_flatten.mpr ⟨b, List.mem_of_getElem? hb, hnd⟩
      rw [Option.map_eq_map, Option.map_some]
      split
      · exact congrArg some ((List.map_congr_left fun nd hnd => hsame nd (hmem nd hnd)).trans
          (List.map_id' b))
      · rfl
  calc m.set hash k v = { m with buckets := (m.set hash k v).buckets } := rfl
    _ = m := by rw [hbuckets]

/-! ### Removal -/

theorem Wf.nodes_remove (h : m.Wf hash) (k : κ) :
    (m.remove hash k).nodes = m.nodes.filter fun nd => nd.key ≠ k := by
  refine h.nodes_modify k (fun xs ys => List.filter_append xs ys) rfl (fun _ => rfl) fun b hb => ?_
  exact List.filter_eq_self.mpr fun nd hnd => decide_eq_true (hb nd hnd)

theorem Wf.lru_remove (h : m.Wf hash) (k : κ) :
    (m.remove hash k).lru = m.lru.filter fun k' => k' ≠ k := by
  rw [HashLru.remove, h.lru_nodup.erase_eq_filter]
  refine List.filter_congr fun k' _ => ?_
  rw [Bool.eq_iff_iff, bne_iff_ne, decide_eq_true_eq]

theorem Wf.remove (h : m.Wf hash) {k : κ} (hk : k ∈ m.lru) : (m.remove hash k).Wf hash := by
  have hkeys : (m.remove hash k).nodes.map HashNode.key =
      (m.nodes.map HashNode.key).filter fun k' => k' ≠ k := by
    rw [h.nodes_remove, List.filter_map]
    rfl
  refine ⟨by simpa [HashLru.remove] using h.pos, h.placed_modify _ ?_, ?_, ?_, ?_⟩
  · exact fun b nd hnd => ⟨nd, List.mem_of_mem_filter hnd, rfl, rfl⟩
  · rw [hkeys]
    exact h.nodup.filter _
  · rw [hkeys, h.lru_remove]
    exact h.lru_perm.filter _
  · rw [HashLru.remove, h.count_eq, List.length_erase_of_mem hk]

theorem Wf.get_remove (h : m.Wf hash) {k : κ} (hk : k ∈ m.lru) (k' : κ) :
    (m.remove hash k).get hash k' = if k' = k then none else m.get hash k' := by
  ext v
  rw [(h.remove hk).get_eq_some_iff, h.nodes_remove]
  constructor
  · intro hex
    obtain ⟨nd, hnd, rfl, rfl⟩ := hex
    obtain ⟨hmem, hne⟩ := List.mem_filter.mp hnd
    rw [if_neg (of_decide_eq_true hne)]
    exact h.get_eq_some_iff.mpr ⟨nd, hmem, rfl, rfl⟩
  · intro hget
    by_cases hkey : k' = k
    · rw [if_pos hkey] at hget
      exact absurd hget (by simp)
    · rw [if_neg hkey] at hget
      obtain ⟨nd, hnd, rfl, rfl⟩ := h.get_eq_some_iff.mp hget
      exact ⟨nd, List.mem_filter.mpr ⟨hnd, decide_eq_true hkey⟩, rfl, rfl⟩

/-! ### Insertion -/

omit [DecidableEq κ] in
theorem Wf.nodes_insert (h : m.Wf hash) (k : κ) (v : ν) :
    (m.insert hash k v).nodes.Perm (⟨k, hash k, v⟩ :: m.nodes) := by
  obtain ⟨hroom, hperm, -, -⟩ := h.room
  exact (mem_flatten_modify_cons (slotOf_lt hroom.pos _) _).trans (hperm.cons _)

omit [DecidableEq κ] in
theorem lru_insert (h : m.Wf hash) (k : κ) (v : ν) : (m.insert hash k v).lru = m.lru ++ [k] :=
  congrArg (· ++ [k]) h.room.2.2.1

omit [DecidableEq κ] in
theorem Wf.insert (h : m.Wf hash) {k : κ} (hk : k ∉ m.lru) (v : ν) :
    (m.insert hash k v).Wf hash := by
  obtain ⟨hroom, -, hlru, hcount⟩ := h.room
  have hkeys := (h.nodes_insert k v).map HashNode.key
  have hfresh : k ∉ m.nodes.map HashNode.key := fun hmem => hk (h.lru_perm.mem_iff.mpr hmem)
  refine ⟨?_, ?_, ?_, ?_, ?_⟩
  · have hpos := hroom.pos
    rw [← List.length_modify] at hpos
    exact hpos
  · intro i b hb nd hnd
    have hplaced := placed_modify_cons ⟨k, hash k, v⟩ hroom.placed rfl i b hb nd hnd
    rw [← List.length_modify] at hplaced
    exact hplaced
  · rw [hkeys.nodup_iff, List.map_cons, List.nodup_cons]
    exact ⟨hfresh, h.nodup⟩
  · rw [lru_insert h]
    refine List.Perm.trans ?_ hkeys.symm
    rw [List.map_cons]
    exact List.perm_append_comm.trans (h.lru_perm.cons k)
  · rw [lru_insert h, List.length_append, List.length_singleton, ← h.count_eq, ← hcount]
    rfl

theorem Wf.get_insert (h : m.Wf hash) {k : κ} (hk : k ∉ m.lru) (v : ν) (k' : κ) :
    (m.insert hash k v).get hash k' = if k' = k then some v else m.get hash k' := by
  ext w
  rw [(h.insert hk v).get_eq_some_iff]
  simp only [(h.nodes_insert k v).mem_iff, List.mem_cons]
  constructor
  · intro hex
    obtain ⟨nd, hnd, rfl, rfl⟩ := hex
    rcases hnd with rfl | hnd
    · rw [if_pos rfl]
    · have hne : nd.key ≠ k := by
        intro hkey
        exact hk (h.lru_perm.mem_iff.mpr (List.mem_map.mpr ⟨nd, hnd, hkey⟩))
      rw [if_neg hne]
      exact h.get_eq_some_iff.mpr ⟨nd, hnd, rfl, rfl⟩
  · intro hget
    by_cases hkey : k' = k
    · rw [if_pos hkey] at hget
      exact ⟨_, .inl rfl, hkey.symm, Option.some.inj hget⟩
    · rw [if_neg hkey] at hget
      obtain ⟨nd, hnd, hk, hval⟩ := h.get_eq_some_iff.mp hget
      exact ⟨nd, .inr hnd, hk, hval⟩

/-! ### Expiry -/

theorem Wf.get_isSome_iff (h : m.Wf hash) {k : κ} : (m.get hash k).isSome = true ↔ k ∈ m.lru := by
  rw [Option.isSome_iff_ne_none, ne_eq, h.get_eq_none_iff, not_not]

/-- One step of the walk: the entry goes if its value satisfies `p`. -/
theorem Wf.dropStep (h : m.Wf hash) (p : ν → Bool) (k : κ) :
    (dropStep hash p m k).Wf hash ∧
      (dropStep hash p m k).lru = m.lru.filter (fun k' => !(k' = k && (m.get hash k).any p)) ∧
      ∀ k', (dropStep hash p m k).get hash k' =
        if k' = k then (m.get hash k).filter (fun v => !p v) else m.get hash k' := by
  unfold HashLru.dropStep
  cases hv : m.get hash k with
  | none =>
    refine ⟨h, by simp, fun k' => ?_⟩
    rw [Option.any_none, if_neg Bool.false_ne_true]
    split
    · rename_i hkey
      rw [hkey, hv]
      rfl
    · rfl
  | some v =>
    have hk : k ∈ m.lru := h.get_isSome_iff.mp (by rw [hv]; rfl)
    by_cases hp : p v = true
    · rw [Option.any_some, if_pos hp]
      refine ⟨h.remove hk, by simp [h.lru_remove, hp], fun k' => ?_⟩
      rw [h.get_remove hk]
      split
      · rw [Option.filter_some_neg (by simp [hp])]
      · rfl
    · rw [Option.any_some, if_neg hp]
      refine ⟨h, by simp [hp], fun k' => ?_⟩
      split
      · rename_i hkey
        rw [hkey, hv, Option.filter_some_pos (by simp [hp])]
      · rfl

/-- **The walk removes the entries whose value satisfies `p` and no others.** -/
theorem Wf.dropWhere (h : m.Wf hash) (p : ν → Bool) :
    (m.dropWhere hash p).Wf hash ∧
      (m.dropWhere hash p).lru = m.lru.filter (fun k => !(m.get hash k).any p) ∧
      ∀ k, (m.dropWhere hash p).get hash k = (m.get hash k).filter fun v => !p v := by
  have hfold : ∀ (ks : List κ), ks.Nodup → ∀ m : HashLru κ ν, m.Wf hash →
      (ks.foldl (HashLru.dropStep hash p) m).Wf hash ∧
        (ks.foldl (HashLru.dropStep hash p) m).lru =
          m.lru.filter (fun k => !(decide (k ∈ ks) && (m.get hash k).any p)) ∧
        ∀ k, (ks.foldl (HashLru.dropStep hash p) m).get hash k =
          if k ∈ ks then (m.get hash k).filter (fun v => !p v) else m.get hash k := by
    intro ks
    induction ks with
    | nil => exact fun _ m hm => ⟨hm, by simp, by simp⟩
    | cons k ks ih =>
      intro hnd m hm
      obtain ⟨hnotin, hnd⟩ := List.nodup_cons.mp hnd
      obtain ⟨hwf, hlru, hget⟩ := hm.dropStep p k
      obtain ⟨hwf', hlru', hget'⟩ := ih hnd _ hwf
      refine ⟨hwf', ?_, fun k' => ?_⟩
      · rw [List.foldl_cons, hlru', hlru, List.filter_filter]
        refine List.filter_congr fun k' _ => ?_
        rw [hget]
        by_cases hk : k' = k
        · subst hk
          simp [hnotin]
        · simp [hk]
      · rw [List.foldl_cons, hget', hget]
        by_cases hk : k' = k
        · subst hk
          simp [hnotin]
        · simp [hk]
  obtain ⟨hwf, hlru, hget⟩ := hfold m.lru h.lru_nodup m h
  refine ⟨hwf, ?_, fun k => ?_⟩
  · rw [HashLru.dropWhere, hlru]
    refine List.filter_congr fun k hk => ?_
    simp [hk]
  · rw [HashLru.dropWhere, hget]
    split
    · rfl
    · rename_i hk
      rw [h.get_eq_none_iff.mpr hk]
      rfl

/-! ## The entries in order of use

The same operations on the list of entries: moving to the end, filtering, dropping the first. -/

theorem Wf.mem_toList (h : m.Wf hash) {k : κ} {v : ν} :
    (k, v) ∈ m.toList hash ↔ m.get hash k = some v := by
  rw [toList, List.mem_filterMap]
  constructor
  · intro hex
    obtain ⟨k', -, hk'⟩ := hex
    obtain ⟨v', hv', heq⟩ := Option.map_eq_some_iff.mp hk'
    obtain ⟨rfl, rfl⟩ := Prod.mk.injEq .. ▸ heq
    exact hv'
  · intro hget
    exact ⟨k, h.get_isSome_iff.mp (by rw [hget]; rfl), by rw [hget]; rfl⟩

theorem Wf.map_fst_toList (h : m.Wf hash) : (m.toList hash).map Prod.fst = m.lru := by
  have hmap : ∀ ks : List κ, (∀ k ∈ ks, k ∈ m.lru) →
      (ks.filterMap fun k => (m.get hash k).map (k, ·)).map Prod.fst = ks := by
    intro ks
    induction ks with
    | nil => exact fun _ => rfl
    | cons k ks ih =>
      intro hks
      obtain ⟨v, hv⟩ := Option.isSome_iff_exists.mp (h.get_isSome_iff.mpr (hks k List.mem_cons_self))
      rw [List.filterMap_cons_some (by rw [hv]; rfl), List.map_cons,
        ih fun k' hk' => hks k' (List.mem_cons_of_mem _ hk')]
  exact hmap m.lru fun _ hk => hk

theorem Wf.length_toList (h : m.Wf hash) : (m.toList hash).length = m.count := by
  rw [h.count_eq, ← h.map_fst_toList, List.length_map]

/-- A key used last goes to the end with its new value. -/
theorem Wf.toList_set_touch (h : m.Wf hash) {k : κ} (hk : k ∈ m.lru) (v : ν) :
    ((m.set hash k v).touch k).toList hash =
      ((m.toList hash).filter fun e => e.1 ≠ k) ++ [(k, v)] := by
  have hself : ((m.set hash k v).touch k).get hash k = some v := by
    obtain ⟨w, hw⟩ := Option.isSome_iff_exists.mp (h.get_isSome_iff.mpr hk)
    rw [get_touch, h.get_set, if_pos rfl, hw]
    rfl
  have hlru : ((m.set hash k v).touch k).lru = (m.lru.filter fun k' => k' ≠ k) ++ [k] := by
    rw [HashLru.touch, HashLru.set, h.lru_nodup.erase_eq_filter]
    refine congrArg (· ++ [k]) (List.filter_congr fun k' _ => ?_)
    rw [Bool.eq_iff_iff, bne_iff_ne, decide_eq_true_eq]
  rw [toList, hlru, List.filterMap_append, List.filterMap_filter, toList, List.filter_filterMap,
    List.filterMap_cons_some (by rw [hself]; rfl), List.filterMap_nil]
  refine congrArg (· ++ [(k, v)]) (List.filterMap_congr fun k' _ => ?_)
  by_cases hkey : k' = k
  · subst hkey
    cases m.get hash k' <;> simp [Option.filter_some]
  · have hget : ((m.set hash k v).touch k).get hash k' = m.get hash k' := by
      rw [get_touch, h.get_set, if_neg hkey]
    rw [hget]
    cases m.get hash k' <;> simp [Option.filter_some, hkey]

/-- A new entry goes to the end. -/
theorem Wf.toList_insert (h : m.Wf hash) {k : κ} (hk : k ∉ m.lru) (v : ν) :
    (m.insert hash k v).toList hash = m.toList hash ++ [(k, v)] := by
  have hself : (m.insert hash k v).get hash k = some v := by rw [h.get_insert hk, if_pos rfl]
  rw [toList, lru_insert h, List.filterMap_append, toList,
    List.filterMap_cons_some (by rw [hself]; rfl), List.filterMap_nil]
  refine congrArg (· ++ [(k, v)]) (List.filterMap_congr fun k' hk' => ?_)
  rw [h.get_insert hk, if_neg]
  rintro rfl
  exact hk hk'

theorem Wf.toList_dropWhere (h : m.Wf hash) (p : ν → Bool) :
    (m.dropWhere hash p).toList hash = (m.toList hash).filter fun e => !p e.2 := by
  obtain ⟨-, hlru, hget⟩ := h.dropWhere p
  rw [toList, hlru, List.filterMap_filter, toList, List.filter_filterMap]
  refine List.filterMap_congr fun k _ => ?_
  rw [hget]
  cases m.get hash k with
  | none => rfl
  | some v => cases hp : p v <;> simp [Option.filter_some, hp]

theorem Wf.evict (h : m.Wf hash) : (m.evict hash).Wf hash ∧ (m.evict hash).lru = m.lru.tail ∧
    (m.evict hash).toList hash = (m.toList hash).tail := by
  unfold HashLru.evict
  cases hlru : m.lru with
  | nil => exact ⟨h, hlru, by rw [toList, hlru]; rfl⟩
  | cons k ks =>
    have hk : k ∈ m.lru := by rw [hlru]; exact List.mem_cons_self
    have hnd := h.lru_nodup
    rw [hlru, List.nodup_cons] at hnd
    have hlru' : (m.remove hash k).lru = ks := by
      rw [HashLru.remove, hlru, List.erase_cons_head]
    obtain ⟨v, hv⟩ := Option.isSome_iff_exists.mp (h.get_isSome_iff.mpr hk)
    refine ⟨h.remove hk, hlru', ?_⟩
    rw [toList, hlru', toList, hlru, List.filterMap_cons_some (by rw [hv]; rfl), List.tail_cons]
    refine List.filterMap_congr fun k' hk' => ?_
    rw [h.get_remove hk, if_neg]
    rintro rfl
    exact hnd.1 hk'

/-- An eviction loses the least recently used key. -/
theorem Wf.get_evict (h : m.Wf hash) (k : κ) :
    (m.evict hash).get hash k = if m.lru.head? = some k then none else m.get hash k := by
  unfold HashLru.evict
  cases hlru : m.lru with
  | nil => rfl
  | cons k₀ ks =>
    have hk₀ : k₀ ∈ m.lru := by rw [hlru]; exact List.mem_cons_self
    simp only [h.get_remove hk₀, List.head?_cons, Option.some.injEq, eq_comm]

/-! ## Maps within a cap

Chains are never given back, so the size of the table is that of the fullest moment.  As the map
never had more entries than its cap, that is bounded too. -/

/-- A table of 16 chains, doubled only while three quarters of it are too few for `cap` entries. -/
def Fits (m : HashLru κ ν) (cap : ℕ) : Prop :=
  m.buckets.length = 16 ∨ ∃ i, m.buckets.length = 32 * 2 ^ i ∧ 12 * 2 ^ i < cap

variable (hash m) in
/-- A well-formed map of at most `cap` entries, in a table that fits them. -/
structure Within (cap : ℕ) : Prop where
  wf : m.Wf hash
  count_le : m.count ≤ cap
  fits : m.Fits cap

omit [DecidableEq κ] in
/-- The table is at most 8/3 of the cap. -/
theorem Fits.length_le {cap : ℕ} (h : m.Fits cap) : 3 * m.buckets.length ≤ max 48 (8 * cap) := by
  rcases h with h | ⟨i, h, hlt⟩ <;> omega

omit [DecidableEq κ] in
/-- Up to this cap, the size of the table and three times it fit 32 bits. -/
theorem Fits.length_lt {cap : ℕ} (h : m.Fits cap) (hcap : cap ≤ 3 * 2 ^ 28) :
    3 * m.buckets.length < 2 ^ 32 := by
  rcases h with h | ⟨i, h, hlt⟩
  · omega
  · have hpow : 2 ^ i < 2 ^ 26 := by omega
    have hi : i < 26 := (Nat.pow_lt_pow_iff_right (by decide)).mp hpow
    have hle : 2 ^ i ≤ 2 ^ 25 := Nat.pow_le_pow_right (by decide) (by omega)
    omega

omit [DecidableEq κ] in
theorem within_empty (cap : ℕ) : (empty 16 : HashLru κ ν).Within hash cap :=
  ⟨wf_empty (by decide), Nat.zero_le _, Or.inl List.length_replicate⟩

@[simp] theorem length_buckets_dropWhere (p : ν → Bool) :
    (m.dropWhere hash p).buckets.length = m.buckets.length := by
  have hstep : ∀ (m : HashLru κ ν) (k : κ),
      (HashLru.dropStep hash p m k).buckets.length = m.buckets.length := by
    intro m k
    unfold HashLru.dropStep
    split
    · exact List.length_modify _ _ _
    · rfl
  have hfold : ∀ (ks : List κ) (m : HashLru κ ν),
      (ks.foldl (HashLru.dropStep hash p) m).buckets.length = m.buckets.length := by
    intro ks
    induction ks with
    | nil => exact fun _ => rfl
    | cons k ks ih => exact fun m => (ih _).trans (hstep m k)
  exact hfold m.lru m

@[simp] theorem length_buckets_evict : (m.evict hash).buckets.length = m.buckets.length := by
  unfold HashLru.evict
  split
  · rfl
  · exact List.length_modify _ _ _

theorem Within.touch {cap : ℕ} (h : m.Within hash cap) {k : κ} (hk : k ∈ m.lru) :
    (m.touch k).Within hash cap := ⟨h.wf.touch hk, h.count_le, h.fits⟩

theorem Within.set {cap : ℕ} (h : m.Within hash cap) (k : κ) (v : ν) :
    (m.set hash k v).Within hash cap := by
  refine ⟨h.wf.set k v, h.count_le, ?_⟩
  have hfits := h.fits
  unfold Fits at hfits ⊢
  rwa [HashLru.set, List.length_modify]

theorem Within.dropWhere {cap : ℕ} (h : m.Within hash cap) (p : ν → Bool) :
    (m.dropWhere hash p).Within hash cap := by
  obtain ⟨hwf, hlru, -⟩ := h.wf.dropWhere p
  refine ⟨hwf, ?_, ?_⟩
  · have hle := List.length_filter_le (fun k => !(m.get hash k).any p) m.lru
    rw [hwf.count_eq, hlru]
    exact Nat.le_trans hle (h.wf.count_eq ▸ h.count_le)
  · have hfits := h.fits
    unfold Fits at hfits ⊢
    rwa [length_buckets_dropWhere]

omit [DecidableEq κ] in
/-- A map with room takes a new entry. -/
theorem Within.insert {cap : ℕ} (h : m.Within hash cap) (hlt : m.count < cap) {k : κ}
    (hk : k ∉ m.lru) (v : ν) : (m.insert hash k v).Within hash cap := by
  have hcount : (m.insert hash k v).count = m.count + 1 := by
    rw [(h.wf.insert hk v).count_eq, lru_insert h.wf, List.length_append, List.length_singleton,
      h.wf.count_eq]
  refine ⟨h.wf.insert hk v, hcount ▸ hlt, ?_⟩
  have hlen : (m.insert hash k v).buckets.length = m.room.buckets.length := List.length_modify _ _ _
  have hfits := h.fits
  unfold Fits at hfits ⊢
  rw [hlen, HashLru.room]
  split
  · -- the table doubles: three quarters of it were too few
    rename_i hfull
    have hdouble := h.wf.length_grow
    right
    rcases hfits with hfits | ⟨i, hi, hlti⟩
    · exact ⟨0, by rw [hdouble, hfits, Nat.pow_zero], by omega⟩
    · exact ⟨i + 1, by rw [hdouble, hi, Nat.pow_succ]; omega, by rw [Nat.pow_succ]; omega⟩
  · exact hfits

/-- **At the cap an entry makes room for a new one.** -/
theorem Within.admit {cap : ℕ} (h : m.Within hash cap) (hpos : 0 < cap) {k : κ} (hk : k ∉ m.lru)
    (v : ν) :
    ((if cap ≤ m.count then m.evict hash else m).insert hash k v).Within hash cap := by
  split
  · rename_i hfull
    obtain ⟨hwf, hlru, -⟩ := h.wf.evict
    have hlen := congrArg List.length hlru
    rw [← hwf.count_eq, List.length_tail, ← h.wf.count_eq] at hlen
    have hle := h.count_le
    have hevict : (m.evict hash).Within hash cap := by
      refine ⟨hwf, by omega, ?_⟩
      have hfits := h.fits
      unfold Fits at hfits ⊢
      rwa [length_buckets_evict]
    exact hevict.insert (by omega) (fun hmem => hk (List.mem_of_mem_tail (hlru ▸ hmem))) v
  · rename_i hroom
    exact h.insert (Nat.lt_of_not_le hroom) hk v

end HashLru

end LibSigma.Library
