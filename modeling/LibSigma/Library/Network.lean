import Mathlib.Data.List.Forall2
import Mathlib.Data.Option.Basic
import Mathlib.Logic.Function.Basic

/-!
# Nodes and messages

Nodes take inputs of their own and messages.  A message is delivered when the network likes, in any
order; it may be delivered twice or never.

## Acts

What can happen is a list of acts: an input at a node, a message that somebody sends, and what the
network does to the message at some position of those on their way, which is to deliver it, to copy
it or to lose it.  A run is a fold over such a list, so "whatever the network does" is a quantifier
over lists.  Nodes do not fail here, and nobody forges messages: what is on its way was sent.

## Two kinds of results

The first is about what holds.  Something that is true of the nodes at the start, of every message
that is sent, and is kept when a node takes an input or a message, is true in the end, and so is
what it says of all that the nodes put out.

The second compares two ways to write messages, say a value and its encoding.  If a node does the
same with both, and both go to the same node, then the runs are the same act by act, whatever the
network does; the messages on their way correspond position by position.

* `Net.run_sound`: **what every input and every message preserves** holds at each node, and of all
  that the nodes put out, whatever the network does.
* `Net.run_rel`: **two ways to write messages come to the same**, if a node does the same with both.
-/

namespace LibSigma.Library

variable {P σ ο ι C M M' : Type}

/-- How a message is written, where it goes, and what a node does with it. -/
structure Link (P σ ο C M : Type) where
  send : C → Option M
  route : M → P
  receive : σ → M → σ × List ο

/-- Nodes, the messages on their way, and what the nodes have put out. -/
structure Net (P σ ο M : Type) where
  node : P → σ
  flight : List M
  log : List (P × ο)

/-- What can happen: an input at a node, a new message, and what a network does to the message at a
position. -/
inductive NetAct (P ι C : Type)
  | input (p : P) (i : ι)
  | send (c : C)
  | deliver (k : ℕ)
  | copy (k : ℕ)
  | lose (k : ℕ)

namespace Net

section Run

variable [DecidableEq P]

/-- A node has done something. -/
def put (N : Net P σ ο M) (p : P) (r : σ × List ο) : Net P σ ο M :=
  { N with node := Function.update N.node p r.1, log := N.log ++ r.2.map fun o => (p, o) }

variable (step : P → σ → ι → σ × List ο) (link : Link P σ ο C M)

def act (N : Net P σ ο M) : NetAct P ι C → Net P σ ο M
  | .input p i => N.put p (step p (N.node p) i)
  | .send c => { N with flight := N.flight ++ (link.send c).toList }
  | .deliver k =>
    match N.flight[k]? with
    | none => N
    | some m =>
      { N.put (link.route m) (link.receive (N.node (link.route m)) m) with
        flight := N.flight.eraseIdx k }
  | .copy k => { N with flight := N.flight ++ N.flight[k]?.toList }
  | .lose k => { N with flight := N.flight.eraseIdx k }

/-- The nodes after some acts. -/
def run (N : Net P σ ο M) (acts : List (NetAct P ι C)) : Net P σ ο M := acts.foldl (act step link) N

end Run

/-! ## What holds at every node -/

/-- The nodes and what they have put out are as they should be, and so are the messages. -/
structure Sound (I : P → σ → Prop) (L : P → ο → Prop) (J : M → Prop) (N : Net P σ ο M) : Prop where
  node : ∀ p, I p (N.node p)
  log : ∀ p o, (p, o) ∈ N.log → L p o
  flight : ∀ m ∈ N.flight, J m

section Sound

variable [DecidableEq P] {step : P → σ → ι → σ × List ο} {link : Link P σ ο C M}
  {I : P → σ → Prop} {L : P → ο → Prop} {J : M → Prop} {N : Net P σ ο M}

theorem Sound.put (h : Sound I L J N) (p : P) {r : σ × List ο} (hI : I p r.1)
    (hL : ∀ o ∈ r.2, L p o) : Sound I L J (N.put p r) where
  node q := by
    show I q (Function.update N.node p r.1 q)
    by_cases hq : q = p
    · subst hq
      rwa [Function.update_self]
    · rw [Function.update_of_ne hq]
      exact h.node q
  log q o ho := by
    rcases List.mem_append.mp ho with ho | ho
    · exact h.log q o ho
    · obtain ⟨o', ho', heq⟩ := List.mem_map.mp ho
      cases heq
      exact hL o ho'
  flight := h.flight

/-- **One act.** -/
theorem Sound.act (h : Sound I L J N)
    (hstep : ∀ p s i, I p s → I p (step p s i).1 ∧ ∀ o ∈ (step p s i).2, L p o)
    (hreceive : ∀ m s, J m → I (link.route m) s →
      I (link.route m) (link.receive s m).1 ∧ ∀ o ∈ (link.receive s m).2, L (link.route m) o)
    (a : NetAct P ι C) (hsend : ∀ c m, a = .send c → link.send c = some m → J m) :
    Sound I L J (N.act step link a) := by
  cases a with
  | input p i =>
    obtain ⟨hI, hL⟩ := hstep p (N.node p) i (h.node p)
    exact h.put p hI hL
  | send c =>
    refine ⟨h.node, h.log, fun m hm => ?_⟩
    rcases List.mem_append.mp hm with hm | hm
    · exact h.flight m hm
    · exact hsend c m rfl (Option.mem_toList.mp hm)
  | deliver k =>
    rw [Net.act]
    cases hm : N.flight[k]? with
    | none => exact h
    | some m =>
      obtain ⟨hI, hL⟩ := hreceive m _ (h.flight m (List.mem_of_getElem? hm)) (h.node (link.route m))
      have hput := h.put (link.route m) hI hL
      exact ⟨hput.node, hput.log, fun m' hm' => h.flight m' (List.mem_of_mem_eraseIdx hm')⟩
  | copy k =>
    refine ⟨h.node, h.log, fun m hm => ?_⟩
    rcases List.mem_append.mp hm with hm | hm
    · exact h.flight m hm
    · exact h.flight m (List.mem_of_getElem? (Option.mem_toList.mp hm))
  | lose k => exact ⟨h.node, h.log, fun m hm => h.flight m (List.mem_of_mem_eraseIdx hm)⟩

variable (step link) in
/-- **Any run.** -/
theorem run_sound (acts : List (NetAct P ι C)) (h : Sound I L J N)
    (hstep : ∀ p s i, I p s → I p (step p s i).1 ∧ ∀ o ∈ (step p s i).2, L p o)
    (hreceive : ∀ m s, J m → I (link.route m) s →
      I (link.route m) (link.receive s m).1 ∧ ∀ o ∈ (link.receive s m).2, L (link.route m) o)
    (hsend : ∀ c m, NetAct.send c ∈ acts → link.send c = some m → J m) :
    Sound I L J (N.run step link acts) := by
  induction acts generalizing N with
  | nil => exact h
  | cons a acts ih =>
    refine ih (h.act hstep hreceive a fun c m ha => ?_) fun c m hc =>
      hsend c m (List.mem_cons_of_mem a hc)
    exact hsend c m (ha ▸ List.mem_cons_self)

end Sound

/-! ## Two ways to write messages -/

/-- Two messages that go to the same node and do the same there. -/
def SameMessage (link : Link P σ ο C M) (link' : Link P σ ο C M') (m : M) (m' : M') : Prop :=
  link.route m = link'.route m' ∧ ∀ s, link.receive s m = link'.receive s m'

/-- The same nodes, with the same messages on their way. -/
structure Rel (link : Link P σ ο C M) (link' : Link P σ ο C M') (N : Net P σ ο M)
    (N' : Net P σ ο M') : Prop where
  node : N.node = N'.node
  log : N.log = N'.log
  flight : List.Forall₂ (SameMessage link link') N.flight N'.flight

section Rel

variable {α β : Type} {R : α → β → Prop}

theorem forall₂_eraseIdx {xs : List α} {ys : List β} (h : List.Forall₂ R xs ys) (k : ℕ) :
    List.Forall₂ R (xs.eraseIdx k) (ys.eraseIdx k) := by
  induction h generalizing k with
  | nil => exact .nil
  | cons hab hrest ih =>
    cases k with
    | zero => exact hrest
    | succ k => exact .cons hab (ih k)

theorem rel_getElem? {xs : List α} {ys : List β} (h : List.Forall₂ R xs ys) (k : ℕ) :
    Option.Rel R xs[k]? ys[k]? := by
  induction h generalizing k with
  | nil => exact .none
  | cons hab hrest ih =>
    cases k with
    | zero => exact .some hab
    | succ k => exact ih k

theorem forall₂_toList {x : Option α} {y : Option β} (h : Option.Rel R x y) :
    List.Forall₂ R x.toList y.toList := by
  cases h with
  | some hab => exact .cons hab .nil
  | none => exact .nil

variable [DecidableEq P] {step : P → σ → ι → σ × List ο} {link : Link P σ ο C M}
  {link' : Link P σ ο C M'} {N : Net P σ ο M} {N' : Net P σ ο M'}

/-- **One act.** -/
theorem Rel.act (h : Rel link link' N N') (a : NetAct P ι C)
    (hsend : ∀ c, a = .send c → Option.Rel (SameMessage link link') (link.send c) (link'.send c)) :
    Rel link link' (N.act step link a) (N'.act step link' a) := by
  cases a with
  | input p i =>
    refine ⟨?_, ?_, h.flight⟩
    · show Function.update N.node p _ = Function.update N'.node p _
      rw [h.node]
    · show N.log ++ _ = N'.log ++ _
      rw [h.log, h.node]
  | send c => exact ⟨h.node, h.log, List.rel_append h.flight (forall₂_toList (hsend c rfl))⟩
  | deliver k =>
    have hget := rel_getElem? h.flight k
    rw [Net.act, Net.act]
    cases hm : N.flight[k]? with
    | none =>
      cases hm' : N'.flight[k]? with
      | none => exact h
      | some m' =>
        rw [hm, hm'] at hget
        cases hget
    | some m =>
      cases hm' : N'.flight[k]? with
      | none =>
        rw [hm, hm'] at hget
        cases hget
      | some m' =>
        rw [hm, hm'] at hget
        cases hget with
        | some hsame =>
          obtain ⟨hroute, hreceive⟩ := hsame
          refine ⟨?_, ?_, forall₂_eraseIdx h.flight k⟩
          · show Function.update N.node (link.route m) _ = Function.update N'.node (link'.route m') _
            rw [hreceive, hroute, h.node]
          · show N.log ++ _ = N'.log ++ _
            rw [hreceive, hroute, h.node, h.log]
  | copy k =>
    exact ⟨h.node, h.log, List.rel_append h.flight (forall₂_toList (rel_getElem? h.flight k))⟩
  | lose k => exact ⟨h.node, h.log, forall₂_eraseIdx h.flight k⟩

variable (step) in
/-- **Any run.** -/
theorem run_rel (acts : List (NetAct P ι C)) (h : Rel link link' N N')
    (hsend : ∀ c, NetAct.send c ∈ acts →
      Option.Rel (SameMessage link link') (link.send c) (link'.send c)) :
    Rel link link' (N.run step link acts) (N'.run step link' acts) := by
  induction acts generalizing N N' with
  | nil => exact h
  | cons a acts ih =>
    refine ih (h.act a fun c ha => ?_) fun c hc => hsend c (List.mem_cons_of_mem a hc)
    exact hsend c (ha ▸ List.mem_cons_self)

end Rel

end Net

end LibSigma.Library
