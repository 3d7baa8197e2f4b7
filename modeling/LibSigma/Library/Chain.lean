import Mathlib.Data.List.Basic
import Mathlib.Logic.Function.Basic

/-!
# Hash chains in arrays

A hash table without allocation keeps one array of heads, indexed by hash, and one array of links,
indexed by entry; `link k` is how entry `k` is written in both, and `stop` ends a chain.  Entries
are inserted at the head of their chain and never removed.

The arrays are functions of the index here, and an update is `Function.update`; what is outside the
arrays of a program is a value nobody asks for.  `Threaded` relates a head to the list of entries
one meets from there.  There is at most one such list, and for links that run in a circle there is
none, so to have a list is to know that the walk ends.

`Chained` says for a whole table what every chain is.  The entries of a hash are given by their
numbers, newest first, because insertion puts the newest at the head; a walk therefore meets them in
that order, and programs that report what they meet can be held to it.  An entry may also have no
hash and be on no chain.

* `Threaded`: the list of entries that following the links from a head visits.
* `Chained`: every chain of the table holds exactly the entries of its hash, newest first.
* `chained_empty`, `Chained.insert`, `Chained.skip`: the table under its operations.
-/

namespace LibSigma.Library

variable {ι κ η : Type} {stop : ι} {link : κ → ι}

/-- Following the links from `head` visits `l` and stops. -/
def Threaded (stop : ι) (link : κ → ι) (next : κ → ι) : ι → List κ → Prop
  | head, [] => head = stop
  | head, k :: l => head = link k ∧ link k ≠ stop ∧ Threaded stop link next (next k) l

section Update

variable [DecidableEq κ] {next : κ → ι}

/-- A link outside the list does not matter. -/
theorem Threaded.update {head : ι} {l : List κ} (h : Threaded stop link next head l) {k : κ}
    (hk : k ∉ l) (v : ι) : Threaded stop link (Function.update next k v) head l := by
  induction l generalizing head with
  | nil => exact h
  | cons a l ih =>
    obtain ⟨hhead, hstop, hrest⟩ := h
    obtain ⟨hka, hkl⟩ := not_or.mp (mt List.mem_cons.mpr hk)
    refine ⟨hhead, hstop, ?_⟩
    rw [Function.update_of_ne (Ne.symm hka)]
    exact ih hrest hkl

/-- Inserting at the head. -/
theorem Threaded.push {head : ι} {l : List κ} (h : Threaded stop link next head l) {k : κ}
    (hk : k ∉ l) (hstop : link k ≠ stop) :
    Threaded stop link (Function.update next k head) (link k) (k :: l) := by
  refine ⟨rfl, hstop, ?_⟩
  rw [Function.update_self]
  exact h.update hk head

end Update

/-! ## The table -/

variable [DecidableEq η] {hash : κ → Option η}

/-- The entries of hash `h`, newest first. -/
def chainOf (hash : κ → Option η) (members : List κ) (h : η) : List κ :=
  (members.filter fun k => hash k = some h).reverse

theorem mem_chainOf {members : List κ} {h : η} {k : κ} :
    k ∈ chainOf hash members h ↔ k ∈ members ∧ hash k = some h := by
  simp [chainOf]

theorem length_chainOf_le (members : List κ) (h : η) :
    (chainOf hash members h).length ≤ members.length := by
  rw [chainOf, List.length_reverse]
  exact List.length_filter_le _ _

/-- Every chain holds exactly the entries of its hash; an entry without a hash is on none. -/
def Chained (stop : ι) (link : κ → ι) (hash : κ → Option η) (head : η → ι) (next : κ → ι)
    (members : List κ) : Prop :=
  ∀ h, Threaded stop link next (head h) (chainOf hash members h)

theorem chained_empty {next : κ → ι} :
    Chained stop link hash (fun _ => stop) next [] :=
  fun _ => rfl

variable {head : η → ι} {next : κ → ι} {members : List κ}

theorem Chained.skip (hc : Chained stop link hash head next members) {k : κ} (hk : hash k = none) :
    Chained stop link hash head next (members ++ [k]) := by
  intro h
  have hsame : chainOf hash (members ++ [k]) h = chainOf hash members h := by
    rw [chainOf, chainOf, List.filter_append, List.filter_singleton, hk]
    simp
  rw [hsame]
  exact hc h

theorem Chained.insert [DecidableEq κ] (hc : Chained stop link hash head next members) {k : κ}
    {h : η} (hk : hash k = some h) (hnew : k ∉ members) (hstop : link k ≠ stop) :
    Chained stop link hash (Function.update head h (link k)) (Function.update next k (head h))
      (members ++ [k]) := by
  intro h'
  have hnot : k ∉ chainOf hash members h' := fun hmem => hnew (mem_chainOf.mp hmem).1
  by_cases heq : h' = h
  · subst heq
    have hpush : chainOf hash (members ++ [k]) h' = k :: chainOf hash members h' := by
      rw [chainOf, chainOf, List.filter_append, List.filter_singleton, hk]
      simp
    rw [Function.update_self, hpush]
    exact (hc h').push hnot hstop
  · have hsame : chainOf hash (members ++ [k]) h' = chainOf hash members h' := by
      rw [chainOf, chainOf, List.filter_append, List.filter_singleton, hk]
      simp [Ne.symm heq]
    rw [Function.update_of_ne heq, hsame]
    exact (hc h').update hnot _

end LibSigma.Library
