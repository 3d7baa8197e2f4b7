import Mathlib.Data.List.Basic
import Mathlib.Data.List.Count
import Mathlib.Data.List.Perm.Basic
import Mathlib.Logic.Function.Basic
import LibSigma.Library.Forgetting

/-!
# Shards of one machine

Nodes read one stream of inputs, each at its own pace.  Every output has a key and every key an
owner; a node puts out, on each input, what one machine alone would put out under the keys the node
owns.

## Paces

Nothing synchronizes the nodes.  One may have read the whole stream when another has not begun, and
`Shards.Reach` lets any node read next at any time.  So the outputs of all nodes, in the order in
which they are put out, are in no order that one machine would produce.  What can be compared is a
key at a time, since a key has one owner and the owner reads in order.

## One input

`Split` is what has to be shown of a program: a relation between the state of a node and that of the
one machine, which an input keeps, and under which the node puts out the right part of what the
machine puts out.  The relation need not determine a state.  A node may keep more than it needs, or
less of what belongs to others.

## The stream

The machine may ask something of its inputs, for instance that they come in order of time.  That is
asked of the stream, once (`RunsOk`), and not of what the nodes do with it.

* `Shards.Reach`: what is reached when any node may read next.
* `Shards.Reach.node_eq`, `Shards.Reach.log_of_node`: a node is where its own run has led it.
* `Split`: what has to be known of one input.
* `Split.log_of_key`: **under each key the outputs are those of the machine**, up to the input the
  owner has read, whatever the order in which the nodes read.
* `Split.log_perm`: **when all is read, nothing is lost and nothing is doubled.**
-/

namespace LibSigma.Library

variable {P σ τ ι ο κ : Type}

/-! ## Outputs -/

/-- The outputs of a run from input `n` on, each with the position of its input. -/
def outputsFrom (step : σ → ι → σ × List ο) : σ → ℕ → List ι → List (ℕ × ο)
  | _, _, [] => []
  | s, n, i :: is => (step s i).2.map (n, ·) ++ outputsFrom step (step s i).1 (n + 1) is

@[simp] theorem outputsFrom_concat (step : σ → ι → σ × List ο) (s : σ) (n : ℕ) (is : List ι) (i : ι) :
    outputsFrom step s n (is ++ [i]) =
      outputsFrom step s n is ++ (step (runFrom step s is) i).2.map (n + is.length, ·) := by
  induction is generalizing s n with
  | nil =>
    rw [List.nil_append, outputsFrom, outputsFrom, outputsFrom, List.append_nil]
    rfl
  | cons j is ih =>
    rw [List.cons_append, outputsFrom, outputsFrom, ih, List.append_assoc, List.length_cons,
      Nat.add_right_comm n 1, Nat.add_assoc n]
    rfl

/-! ## Nodes -/

/-- Nodes that read one stream: the state of each, how much it has read, and what all of them have
put out, each output with its node and the position of its input. -/
structure Shards (P σ ο : Type) where
  node : P → σ
  pos : P → ℕ
  log : List (P × ℕ × ο)

namespace Shards

section Reach

variable [DecidableEq P] (step : P → σ → ι → σ × List ο) (new : P → σ) (inputs : List ι)

/-- Node `p` reads the input `i`. -/
def advance (S : Shards P σ ο) (p : P) (i : ι) : Shards P σ ο where
  node := Function.update S.node p (step p (S.node p) i).1
  pos := Function.update S.pos p (S.pos p + 1)
  log := S.log ++ (step p (S.node p) i).2.map fun o => (p, S.pos p, o)

/-- What is reached when any node may read next. -/
inductive Reach : Shards P σ ο → Prop
  | start : Reach ⟨new, fun _ => 0, []⟩
  | advance {S : Shards P σ ο} (p : P) {i : ι} (h : Reach S) (hi : inputs[S.pos p]? = some i) :
      Reach (S.advance step p i)

variable {step new inputs} {S : Shards P σ ο} {p q : P} {i : ι}

@[simp] theorem node_advance_self : (S.advance step p i).node p = (step p (S.node p) i).1 :=
  Function.update_self ..

@[simp] theorem node_advance_of_ne (h : q ≠ p) : (S.advance step p i).node q = S.node q :=
  Function.update_of_ne h ..

@[simp] theorem pos_advance_self : (S.advance step p i).pos p = S.pos p + 1 :=
  Function.update_self ..

@[simp] theorem pos_advance_of_ne (h : q ≠ p) : (S.advance step p i).pos q = S.pos q :=
  Function.update_of_ne h ..

@[simp] theorem log_advance : (S.advance step p i).log =
    S.log ++ (step p (S.node p) i).2.map fun o => (p, S.pos p, o) := rfl

/-- The input a node reads next ends what it has read then. -/
theorem take_succ_of_getElem? {n : ℕ} {i : ι} (h : inputs[n]? = some i) :
    inputs.take (n + 1) = inputs.take n ++ [i] := by
  rw [List.take_add_one, h]
  rfl

theorem Reach.pos_le (h : Reach step new inputs S) (p : P) : S.pos p ≤ inputs.length := by
  induction h with
  | start => exact Nat.zero_le _
  | @advance S q i h hi ih =>
    obtain ⟨hlt, -⟩ := List.getElem?_eq_some_iff.mp hi
    by_cases hp : p = q
    · rw [hp, pos_advance_self]
      exact hlt
    · rw [pos_advance_of_ne hp]
      exact ih

/-- **A node is where its own run has led it.** -/
theorem Reach.node_eq (h : Reach step new inputs S) (p : P) :
    S.node p = runFrom (step p) (new p) (inputs.take (S.pos p)) := by
  induction h with
  | start => rfl
  | @advance S q i h hi ih =>
    by_cases hp : p = q
    · subst hp
      rw [node_advance_self, pos_advance_self, take_succ_of_getElem? hi, runFrom_concat, ← ih]
    · rw [node_advance_of_ne hp, pos_advance_of_ne hp]
      exact ih

/-- What a node has put out is what its own run puts out. -/
theorem Reach.log_of_node (h : Reach step new inputs S) (p : P) :
    (S.log.filter fun x => x.1 = p).map Prod.snd =
      outputsFrom (step p) (new p) 0 (inputs.take (S.pos p)) := by
  induction h with
  | start => rfl
  | @advance S q i h hi ih =>
    obtain ⟨hlt, -⟩ := List.getElem?_eq_some_iff.mp hi
    by_cases hp : p = q
    · subst hp
      have hown : (((step p (S.node p) i).2.map fun o => (p, S.pos p, o)).filter
          fun x => x.1 = p) = (step p (S.node p) i).2.map fun o => (p, S.pos p, o) := by
        refine List.filter_eq_self.mpr fun x hx => ?_
        obtain ⟨o, -, rfl⟩ := List.mem_map.mp hx
        exact decide_eq_true rfl
      rw [log_advance, pos_advance_self, take_succ_of_getElem? hi, outputsFrom_concat,
        ← h.node_eq, ← ih, List.filter_append, List.map_append, hown, List.map_map,
        List.length_take_of_le hlt.le, Nat.zero_add]
      rfl
    · have hother : (((step q (S.node q) i).2.map fun o => (q, S.pos q, o)).filter
          fun x => x.1 = p) = [] := by
        refine List.filter_eq_nil_iff.mpr fun x hx => ?_
        obtain ⟨o, -, rfl⟩ := List.mem_map.mp hx
        exact fun heq => hp (of_decide_eq_true heq).symm
      rw [log_advance, pos_advance_of_ne hp, List.filter_append, hother, List.append_nil]
      exact ih

end Reach

end Shards

/-! ## Splitting a machine -/

/-- Two lists with the same entries under each key are permutations of each other. -/
theorem perm_of_filter_key {α : Type} [DecidableEq κ] (key : α → κ) {l l' : List α}
    (h : ∀ k, (l.filter fun a => key a = k) = l'.filter fun a => key a = k) : l.Perm l' := by
  classical
  refine List.perm_iff_count.mpr fun a => ?_
  have hcount : ∀ m : List α, m.count a = (m.filter fun b => key b = key a).count a := by
    intro m
    have hself : decide (key a = key a) = true := decide_eq_true rfl
    exact (List.count_filter (p := fun b => decide (key b = key a)) hself).symm
  rw [hcount l, hcount l', h]

/-- The nodes split the machine `one`: while its inputs are `Ok`, a node stays related to it and puts
out what it puts out under the keys the node owns. -/
structure Split [DecidableEq P] (one : τ → ι → τ × List ο) (step : P → σ → ι → σ × List ο)
    (owner : κ → P) (key : ο → κ) (Ok : τ → ι → Prop) (Sim : P → τ → σ → Prop) : Prop where
  step : ∀ {p t s i}, Sim p t s → Ok t i → Sim p (one t i).1 (step p s i).1 ∧
    (step p s i).2 = (one t i).2.filter fun o => owner (key o) = p

namespace Split

variable [DecidableEq P] {one : τ → ι → τ × List ο} {step : P → σ → ι → σ × List ο}
  {owner : κ → P} {key : ο → κ} {Ok : τ → ι → Prop} {Sim : P → τ → σ → Prop} {t₀ : τ}
  {new : P → σ} {inputs : List ι} {S : Shards P σ ο}

/-- Every input of the run of the machine is `Ok`. -/
def RunsOk (one : τ → ι → τ × List ο) (Ok : τ → ι → Prop) (t₀ : τ) (inputs : List ι) : Prop :=
  ∀ n i, inputs[n]? = some i → Ok (runFrom one t₀ (inputs.take n)) i

/-- The run of a node against that of the machine. -/
theorem run (h : Split one step owner key Ok Sim) (hnew : ∀ p, Sim p t₀ (new p))
    (hok : RunsOk one Ok t₀ inputs) (p : P) {n : ℕ} (hn : n ≤ inputs.length) :
    Sim p (runFrom one t₀ (inputs.take n)) (runFrom (step p) (new p) (inputs.take n)) ∧
      outputsFrom (step p) (new p) 0 (inputs.take n) =
        (outputsFrom one t₀ 0 (inputs.take n)).filter fun x => owner (key x.2) = p := by
  induction n with
  | zero => exact ⟨hnew p, rfl⟩
  | succ n ih =>
    obtain ⟨hsim, hout⟩ := ih (Nat.le_of_succ_le hn)
    have hi : inputs[n]? = some inputs[n] := List.getElem?_eq_getElem hn
    obtain ⟨hsim', hout'⟩ := h.step hsim (hok n _ hi)
    rw [Shards.take_succ_of_getElem? hi, runFrom_concat, runFrom_concat, outputsFrom_concat,
      outputsFrom_concat, List.filter_append, hout, hout', List.filter_map]
    exact ⟨hsim', rfl⟩

/-- A node stays related to the machine that has read as much. -/
theorem sim (h : Split one step owner key Ok Sim) (hnew : ∀ p, Sim p t₀ (new p))
    (hok : RunsOk one Ok t₀ inputs) (hS : Shards.Reach step new inputs S) (p : P) :
    Sim p (runFrom one t₀ (inputs.take (S.pos p))) (S.node p) := by
  rw [hS.node_eq]
  exact (h.run hnew hok p (hS.pos_le p)).1

/-- A node puts out what the machine does under the keys the node owns. -/
theorem log_of_owner (h : Split one step owner key Ok Sim) (hnew : ∀ p, Sim p t₀ (new p))
    (hok : RunsOk one Ok t₀ inputs) (hS : Shards.Reach step new inputs S) (p : P) :
    (S.log.filter fun x => x.1 = p).map Prod.snd =
      (outputsFrom one t₀ 0 (inputs.take (S.pos p))).filter fun x => owner (key x.2) = p := by
  rw [hS.log_of_node]
  exact (h.run hnew hok p (hS.pos_le p)).2

/-- **Under each key the outputs are those of the machine**, up to what the owner has read. -/
theorem log_of_key [DecidableEq κ] (h : Split one step owner key Ok Sim)
    (hnew : ∀ p, Sim p t₀ (new p)) (hok : RunsOk one Ok t₀ inputs)
    (hS : Shards.Reach step new inputs S) (k : κ) :
    ((S.log.map Prod.snd).filter fun x => key x.2 = k) =
      (outputsFrom one t₀ 0 (inputs.take (S.pos (owner k)))).filter fun x => key x.2 = k := by
  -- an entry under the key was put out by the owner
  have hown : (S.log.filter fun x => key x.2.2 = k) =
      (S.log.filter fun x => x.1 = owner k).filter fun x => key x.2.2 = k := by
    rw [List.filter_filter]
    refine List.filter_congr fun x hx => ?_
    have hmem : x.2 ∈ (S.log.filter fun y => y.1 = x.1).map Prod.snd :=
      List.mem_map_of_mem (List.mem_filter.mpr ⟨hx, decide_eq_true rfl⟩)
    rw [h.log_of_owner hnew hok hS] at hmem
    have hx' : owner (key x.2.2) = x.1 := of_decide_eq_true (List.mem_filter.mp hmem).2
    by_cases hk : key x.2.2 = k
    · rw [decide_eq_true hk, decide_eq_true (hk ▸ hx'.symm), Bool.and_self]
    · rw [decide_eq_false hk, Bool.false_and]
  have howned := congrArg (List.filter fun x => key x.2 = k) (h.log_of_owner hnew hok hS (owner k))
  rw [List.filter_map] at howned ⊢
  refine (congrArg (List.map Prod.snd) hown).trans (howned.trans ?_)
  rw [List.filter_filter]
  refine List.filter_congr fun x _ => ?_
  by_cases hk : key x.2 = k
  · rw [decide_eq_true hk, decide_eq_true (congrArg owner hk), Bool.and_self]
  · rw [decide_eq_false hk, Bool.false_and]

/-- **When all is read, nothing is lost and nothing is doubled.** -/
theorem log_perm (h : Split one step owner key Ok Sim) (hnew : ∀ p, Sim p t₀ (new p))
    (hok : RunsOk one Ok t₀ inputs) (hS : Shards.Reach step new inputs S)
    (hdone : ∀ p, S.pos p = inputs.length) :
    (S.log.map Prod.snd).Perm (outputsFrom one t₀ 0 inputs) := by
  classical
  refine perm_of_filter_key (fun x => key x.2) fun k => ?_
  rw [h.log_of_key hnew hok hS, hdone, List.take_length]

end Split

end LibSigma.Library
