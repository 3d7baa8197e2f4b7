import Mathlib.Data.List.Nodup

/-!
# First times

A record of what was done before, such as a stamp array or a memo, lets every thing be done once.

The record is a predicate, and what was done between two records is a list without duplicates: the
things that the later record has and the earlier one has not.  So three questions are answered at
once: what was done in between, that it was done once, and that it had not been done before.  Steps
compose by appending their lists, with no condition, since what the first step did is in the record
of the second.

Two lists between the same records have the same elements and no duplicates, and are equal up to
order.  That is how a count of work done is compared with the length of some other list of the same
things.

* `Firsts done done' new`: between the two records exactly the things in `new` were done, each for
  the first time.
* `Firsts.refl`, `Firsts.single`, `Firsts.trans`: no step, one step, and steps in sequence.
* `Firsts.perm`: from an empty record, the things done are those of any list without duplicates with
  the same elements.
-/

namespace LibSigma.Library

variable {ι : Type*}

/-- Exactly the things in `new` were done, each for the first time. -/
structure Firsts (done done' : ι → Prop) (new : List ι) : Prop where
  nodup : new.Nodup
  fresh : ∀ i ∈ new, ¬ done i
  record : ∀ i, done' i ↔ done i ∨ i ∈ new

namespace Firsts

variable {done done' done'' : ι → Prop} {new new' : List ι}

theorem refl (done : ι → Prop) : Firsts done done [] :=
  ⟨List.nodup_nil, nofun, fun _ => ⟨.inl, fun h => h.elim id nofun⟩⟩

theorem single {i : ι} (hfresh : ¬ done i) (h : ∀ j, done' j ↔ j = i ∨ done j) :
    Firsts done done' [i] := by
  refine ⟨List.nodup_singleton i, fun j hj => List.mem_singleton.mp hj ▸ hfresh, fun j => ?_⟩
  rw [h, List.mem_singleton, or_comm]

theorem trans (h : Firsts done done' new) (h' : Firsts done' done'' new') :
    Firsts done done'' (new ++ new') := by
  refine ⟨List.nodup_append'.mpr ⟨h.nodup, h'.nodup, fun i hi hi' => ?_⟩, fun i hi => ?_, fun i => ?_⟩
  · exact h'.fresh i hi' ((h.record i).mpr (.inr hi))
  · rcases List.mem_append.mp hi with hi | hi
    · exact h.fresh i hi
    · exact fun hdone => h'.fresh i hi ((h.record i).mpr (.inl hdone))
  · rw [h'.record, h.record, List.mem_append, or_assoc]

/-- From an empty record. -/
theorem perm (h : Firsts done done' new) (hempty : ∀ i, ¬ done i) {l : List ι} (hl : l.Nodup)
    (hmem : ∀ i, done' i ↔ i ∈ l) : new.Perm l := by
  refine (List.perm_ext_iff_of_nodup h.nodup hl).mpr fun i => ?_
  rw [← hmem, h.record]
  exact ⟨.inr, fun hi => hi.resolve_left (hempty i)⟩

end Firsts

end LibSigma.Library
