import Mathlib.Data.List.Basic
import Mathlib.Algebra.BigOperators.Group.List.Basic
import Mathlib.Algebra.Ring.Int.Defs

/-!
# Boolean expressions in reverse Polish notation

A boolean expression is written operands first, operator last, and read by a machine with a stack of
at most `bound` cells.

## A symbolic machine

Programs run such strings on stacks of values, some eagerly and some lazily, and differ in what a
cell is.  The machine here has expressions in its cells.  It is not meant to be run; it says which
strings are accepted and what each cell stands for at each token, and any other machine is compared
with it step by step.  It fails when an operator lacks an operand, when the stack is full and when
an atom is not admissible.

## Which strings are accepted

A run is the inverse of writing an expression.  In one direction the code of an expression that fits
leaves that expression on the stack (`rpnRun_code`).  In the other, a stack that was reached holds
expressions whose codes, one after the other, are the string so far (`rpnRun_sound`).  So the
accepted strings are exactly the codes, and a string is the code of at most one expression.  How
many cells are needed is the depth.

Acceptance can also be decided by counting, without an expression: each token adds one cell or takes
one away, and a prefix must leave at least one and no more than there is room for.

* `BoolExpr`, `BoolExpr.Holds`, `BoolExpr.eval`: expressions over atoms and their truth.
* `BoolExpr.code`: the token string of an expression; `BoolExpr.depth`: the cells it needs.
* `rpnRun`: the machine.  Its cells hold expressions, so it is the symbolic run that a machine over
  values, eager or lazy, has to follow.
* `rpnRun_eq_singleton_iff`: **the machine ends with one cell exactly on the token strings of the
  expressions that fit, and that cell is the expression.**
* `exists_rpnRun_eq_singleton_iff`: **those are the strings whose prefixes count right.**
-/

namespace LibSigma.Library

variable {α : Type}

/-- A boolean expression over atoms. -/
inductive BoolExpr (α : Type) where
  | arg (a : α)
  | not (e : BoolExpr α)
  | and (e f : BoolExpr α)
  | or (e f : BoolExpr α)
  deriving DecidableEq, Repr

/-- A token of the notation. -/
inductive RpnTok (α : Type) where
  | arg (a : α)
  | not
  | and
  | or
  deriving DecidableEq, Repr

namespace BoolExpr

/-- The truth of an expression, given the truth of its atoms. -/
def Holds (v : α → Prop) : BoolExpr α → Prop
  | arg a => v a
  | not e => ¬ e.Holds v
  | and e f => e.Holds v ∧ f.Holds v
  | or e f => e.Holds v ∨ f.Holds v

/-- The same, computed. -/
def eval (v : α → Bool) : BoolExpr α → Bool
  | arg a => v a
  | not e => !e.eval v
  | and e f => e.eval v && f.eval v
  | or e f => e.eval v || f.eval v

/-- The atoms of an expression. -/
def args : BoolExpr α → List α
  | arg a => [a]
  | not e => e.args
  | and e f => e.args ++ f.args
  | or e f => e.args ++ f.args

/-- The two agree when they agree on the atoms. -/
theorem eval_iff_holds_of_args {v : α → Bool} {p : α → Prop} {e : BoolExpr α}
    (h : ∀ a ∈ e.args, (v a = true ↔ p a)) : e.eval v = true ↔ e.Holds p := by
  induction e with
  | arg a => exact h a (by simp [args])
  | not e ih => simp [eval, Holds, ← ih h]
  | and e f ihe ihf =>
    simp only [args, List.mem_append] at h
    simp [eval, Holds, ← ihe fun a ha => h a (.inl ha), ← ihf fun a ha => h a (.inr ha)]
  | or e f ihe ihf =>
    simp only [args, List.mem_append] at h
    simp [eval, Holds, ← ihe fun a ha => h a (.inl ha), ← ihf fun a ha => h a (.inr ha)]

/-- An expression depends on its own atoms. -/
theorem eval_congr {v w : α → Bool} {e : BoolExpr α} (h : ∀ a ∈ e.args, v a = w a) :
    e.eval v = e.eval w := by
  have hv : e.eval v = true ↔ e.Holds fun a => w a = true :=
    eval_iff_holds_of_args fun a ha => by rw [h a ha]
  have hw : e.eval w = true ↔ e.Holds fun a => w a = true :=
    eval_iff_holds_of_args fun a _ => Iff.rfl
  exact Bool.eq_iff_iff.mpr (hv.trans hw.symm)

/-- The token string of an expression. -/
def code : BoolExpr α → List (RpnTok α)
  | arg a => [.arg a]
  | not e => e.code ++ [.not]
  | and e f => e.code ++ f.code ++ [.and]
  | or e f => e.code ++ f.code ++ [.or]

theorem mem_code_of_mem_args {e : BoolExpr α} {a : α} (h : a ∈ e.args) : .arg a ∈ e.code := by
  induction e with
  | arg b =>
    rw [List.mem_singleton.mp h]
    exact List.mem_cons_self
  | not e ih => exact List.mem_append_left _ (ih h)
  | and e f ihe ihf =>
    refine List.mem_append_left _ (List.mem_append.mpr ?_)
    exact (List.mem_append.mp h).imp ihe ihf
  | or e f ihe ihf =>
    refine List.mem_append_left _ (List.mem_append.mpr ?_)
    exact (List.mem_append.mp h).imp ihe ihf

/-- The stack cells needed to read the token string of an expression. -/
def depth : BoolExpr α → ℕ
  | arg _ => 1
  | not e => e.depth
  | and e f => max e.depth (f.depth + 1)
  | or e f => max e.depth (f.depth + 1)

end BoolExpr

/-! ## The machine -/

/-- One token, on the stack with its top first; `none` is a malformed string. -/
def rpnStep (bound : ℕ) (ok : α → Bool) :
    RpnTok α → List (BoolExpr α) → Option (List (BoolExpr α))
  | .arg a, s => if s.length < bound ∧ ok a then some (.arg a :: s) else none
  | .not, e :: s => some (.not e :: s)
  | .and, f :: e :: s => some (.and e f :: s)
  | .or, f :: e :: s => some (.or e f :: s)
  | _, _ => none

/-- All tokens. -/
def rpnRun (bound : ℕ) (ok : α → Bool) :
    List (RpnTok α) → List (BoolExpr α) → Option (List (BoolExpr α))
  | [], s => some s
  | tok :: toks, s =>
    match rpnStep bound ok tok s with
    | none => none
    | some s => rpnRun bound ok toks s

section Machine

variable {bound : ℕ} {ok : α → Bool}

theorem rpnRun_cons_of_step {tok : RpnTok α} {toks : List (RpnTok α)} {s s' : List (BoolExpr α)}
    (h : rpnStep bound ok tok s = some s') :
    rpnRun bound ok (tok :: toks) s = rpnRun bound ok toks s' := by
  rw [rpnRun, h]

/-- **Completeness**: the machine reads the code of an expression that fits as that expression. -/
theorem rpnRun_code {e : BoolExpr α} {rest : List (RpnTok α)} {s : List (BoolExpr α)}
    (hfit : s.length + e.depth ≤ bound) (hok : ∀ a ∈ e.args, ok a) :
    rpnRun bound ok (e.code ++ rest) s = rpnRun bound ok rest (e :: s) := by
  induction e generalizing s rest with
  | arg a =>
    have hstep : rpnStep bound ok (.arg a) s = some (.arg a :: s) := by
      rw [rpnStep, if_pos ⟨hfit, hok a (by simp [BoolExpr.args])⟩]
    exact rpnRun_cons_of_step hstep
  | not e ih =>
    rw [BoolExpr.code, List.append_assoc, ih hfit hok]
    rfl
  | and e f ihe ihf =>
    simp only [BoolExpr.depth] at hfit
    simp only [BoolExpr.args, List.mem_append] at hok
    rw [BoolExpr.code, List.append_assoc, List.append_assoc,
      ihe (by omega) fun a ha => hok a (.inl ha),
      ihf (by rw [List.length_cons]; omega) fun a ha => hok a (.inr ha)]
    rfl
  | or e f ihe ihf =>
    simp only [BoolExpr.depth] at hfit
    simp only [BoolExpr.args, List.mem_append] at hok
    rw [BoolExpr.code, List.append_assoc, List.append_assoc,
      ihe (by omega) fun a ha => hok a (.inl ha),
      ihf (by rw [List.length_cons]; omega) fun a ha => hok a (.inr ha)]
    rfl

/-- Every cell fits above the cells below it, and has admissible atoms only. -/
def StackOk (bound : ℕ) (ok : α → Bool) : List (BoolExpr α) → Prop
  | [] => True
  | e :: s => s.length + e.depth ≤ bound ∧ (∀ a ∈ e.args, ok a) ∧ StackOk bound ok s

/-- The tokens that built a stack. -/
def stackCode (s : List (BoolExpr α)) : List (RpnTok α) := s.reverse.flatMap BoolExpr.code

@[simp] theorem stackCode_cons (e : BoolExpr α) (s : List (BoolExpr α)) :
    stackCode (e :: s) = stackCode s ++ e.code := by
  simp [stackCode]

/-- One step keeps the stack well formed and records its token. -/
theorem rpnStep_sound {tok : RpnTok α} {s s' : List (BoolExpr α)} (hs : StackOk bound ok s)
    (h : rpnStep bound ok tok s = some s') :
    StackOk bound ok s' ∧ stackCode s' = stackCode s ++ [tok] := by
  match tok, s, h with
  | .arg a, s, h =>
    rw [rpnStep] at h
    split at h
    · rename_i hcond
      obtain rfl := Option.some.inj h
      refine ⟨⟨hcond.1, ?_, hs⟩, stackCode_cons _ _⟩
      simpa [BoolExpr.args] using hcond.2
    · exact absurd h (by simp)
  | .not, e :: s, h =>
    obtain rfl := Option.some.inj h
    exact ⟨hs, by simp [stackCode_cons, BoolExpr.code]⟩
  | .and, f :: e :: s, h =>
    obtain rfl := Option.some.inj h
    obtain ⟨hf, hfok, he, heok, hs⟩ := hs
    rw [List.length_cons] at hf
    refine ⟨⟨?_, ?_, hs⟩, by simp [stackCode_cons, BoolExpr.code]⟩
    · simp only [BoolExpr.depth]
      omega
    · intro a ha
      exact (List.mem_append.mp ha).elim (heok a) (hfok a)
  | .or, f :: e :: s, h =>
    obtain rfl := Option.some.inj h
    obtain ⟨hf, hfok, he, heok, hs⟩ := hs
    rw [List.length_cons] at hf
    refine ⟨⟨?_, ?_, hs⟩, by simp [stackCode_cons, BoolExpr.code]⟩
    · simp only [BoolExpr.depth]
      omega
    · intro a ha
      exact (List.mem_append.mp ha).elim (heok a) (hfok a)

/-- **Soundness**: a run that ends has read the code of its final stack. -/
theorem rpnRun_sound {toks : List (RpnTok α)} {s s' : List (BoolExpr α)} (hs : StackOk bound ok s)
    (h : rpnRun bound ok toks s = some s') :
    StackOk bound ok s' ∧ stackCode s' = stackCode s ++ toks := by
  induction toks generalizing s with
  | nil =>
    obtain rfl := Option.some.inj h
    exact ⟨hs, (List.append_nil _).symm⟩
  | cons tok toks ih =>
    rw [rpnRun] at h
    split at h
    · exact absurd h (by simp)
    · rename_i s₁ hstep
      obtain ⟨hs₁, hcode₁⟩ := rpnStep_sound hs hstep
      obtain ⟨hs', hcode'⟩ := ih hs₁ h
      refine ⟨hs', ?_⟩
      rw [hcode', hcode₁, List.append_assoc, List.singleton_append]

/-- **The accepted strings.**  The machine ends with one cell exactly on the code of an expression
that fits its stack and whose atoms are admissible. -/
theorem rpnRun_eq_singleton_iff {toks : List (RpnTok α)} {e : BoolExpr α} :
    rpnRun bound ok toks [] = some [e] ↔
      toks = e.code ∧ e.depth ≤ bound ∧ ∀ a ∈ e.args, ok a := by
  constructor
  · intro h
    obtain ⟨⟨hfit, hargs, _⟩, hcode⟩ := rpnRun_sound (s := []) trivial h
    rw [stackCode_cons] at hcode
    refine ⟨?_, by simpa using hfit, hargs⟩
    simpa [stackCode] using hcode.symm
  · rintro ⟨rfl, hfit, hargs⟩
    have hrun : rpnRun bound ok (e.code ++ []) [] = rpnRun bound ok [] [e] :=
      rpnRun_code (by simpa using hfit) hargs
    rw [List.append_nil] at hrun
    exact hrun

/-! ## Counting cells -/

/-- The cells a token adds. -/
def RpnTok.effect : RpnTok α → ℤ
  | .arg _ => 1
  | .not => 0
  | .and => -1
  | .or => -1

/-- Every nonempty prefix leaves at least one cell and at most `bound` of them, and all the steps
leave one. -/
def Balanced (bound : ℕ) (steps : List ℤ) : Prop :=
  (∀ k < steps.length, 1 ≤ (steps.take (k + 1)).sum ∧ (steps.take (k + 1)).sum ≤ bound) ∧
    steps.sum = 1

instance (bound : ℕ) (steps : List ℤ) : Decidable (Balanced bound steps) :=
  inferInstanceAs (Decidable (_ ∧ _))

/-- **One step** succeeds when it leaves between one and `bound` cells. -/
theorem rpnStep_isSome_iff {tok : RpnTok α} {s : List (BoolExpr α)} (hs : s.length ≤ bound)
    (hok : ∀ a, tok = .arg a → ok a = true) :
    (∃ s', rpnStep bound ok tok s = some s') ↔
      1 ≤ (s.length : ℤ) + tok.effect ∧ (s.length : ℤ) + tok.effect ≤ bound := by
  match tok, s with
  | .arg a, s =>
    rw [rpnStep]
    constructor
    · rintro ⟨s', hs'⟩
      split at hs'
      · rename_i hcond
        simp only [RpnTok.effect]
        omega
      · exact absurd hs' (by simp)
    · intro hcount
      simp only [RpnTok.effect] at hcount
      exact ⟨_, if_pos ⟨by omega, hok a rfl⟩⟩
  | .not, [] => simp [rpnStep, RpnTok.effect]
  | .not, e :: s =>
    simp only [rpnStep, RpnTok.effect, List.length_cons, Option.some.injEq, exists_eq', true_iff]
    rw [List.length_cons] at hs
    omega
  | .and, [] => simp [rpnStep, RpnTok.effect]
  | .and, [e] => simp [rpnStep, RpnTok.effect]
  | .and, f :: e :: s =>
    simp only [rpnStep, RpnTok.effect, List.length_cons, Option.some.injEq, exists_eq', true_iff]
    rw [List.length_cons, List.length_cons] at hs
    omega
  | .or, [] => simp [rpnStep, RpnTok.effect]
  | .or, [e] => simp [rpnStep, RpnTok.effect]
  | .or, f :: e :: s =>
    simp only [rpnStep, RpnTok.effect, List.length_cons, Option.some.injEq, exists_eq', true_iff]
    rw [List.length_cons, List.length_cons] at hs
    omega

theorem length_of_rpnStep {tok : RpnTok α} {s s' : List (BoolExpr α)}
    (h : rpnStep bound ok tok s = some s') : (s'.length : ℤ) = s.length + tok.effect := by
  match tok, s, h with
  | .arg a, s, h =>
    rw [rpnStep] at h
    split at h
    · obtain rfl := Option.some.inj h
      simp [RpnTok.effect]
    · exact absurd h (by simp)
  | .not, e :: s, h =>
    obtain rfl := Option.some.inj h
    simp [RpnTok.effect]
  | .and, f :: e :: s, h =>
    obtain rfl := Option.some.inj h
    simp only [RpnTok.effect, List.length_cons]
    omega
  | .or, f :: e :: s, h =>
    obtain rfl := Option.some.inj h
    simp only [RpnTok.effect, List.length_cons]
    omega

/-- **A run** ends when each of its prefixes leaves between one and `bound` cells.  By induction on
the tokens, the stack's length being what the prefix so far has counted. -/
theorem rpnRun_isSome_iff {toks : List (RpnTok α)} {s : List (BoolExpr α)} (hs : s.length ≤ bound)
    (hok : ∀ a, .arg a ∈ toks → ok a = true) :
    (∃ s', rpnRun bound ok toks s = some s') ↔
      ∀ k < toks.length, 1 ≤ (s.length : ℤ) + ((toks.map RpnTok.effect).take (k + 1)).sum ∧
        (s.length : ℤ) + ((toks.map RpnTok.effect).take (k + 1)).sum ≤ bound := by
  induction toks generalizing s with
  | nil => simp [rpnRun]
  | cons tok toks ih =>
    have htok : ∀ a, tok = .arg a → ok a = true := fun a ha => hok a (by simp [ha])
    have hfirst := rpnStep_isSome_iff hs htok
    constructor
    · rintro ⟨s', hrun⟩ k hk
      rw [rpnRun] at hrun
      split at hrun
      · exact absurd hrun (by simp)
      · rename_i s₁ hstep
        have hlen := length_of_rpnStep hstep
        have hbound := hfirst.mp ⟨s₁, hstep⟩
        have hrest := (ih (s := s₁) (by omega) fun a ha => hok a (by simp [ha])).mp ⟨s', hrun⟩
        cases k with
        | zero => simpa using hbound
        | succ k =>
          have hk' := hrest k (by simpa using hk)
          simp only [List.map_cons, List.take_succ_cons, List.sum_cons] at hk' ⊢
          omega
    · intro h
      have hzero := h 0 (by simp)
      obtain ⟨s₁, hstep⟩ := hfirst.mpr (by simpa using hzero)
      have hlen := length_of_rpnStep hstep
      have hrest : ∃ s', rpnRun bound ok toks s₁ = some s' := by
        have hbound := hfirst.mp ⟨s₁, hstep⟩
        refine (ih (by omega) fun a ha => hok a (by simp [ha])).mpr fun k hk => ?_
        have hk' := h (k + 1) (by simpa using hk)
        simp only [List.map_cons, List.take_succ_cons, List.sum_cons] at hk' ⊢
        omega
      obtain ⟨s', hrun⟩ := hrest
      exact ⟨s', (rpnRun_cons_of_step hstep).trans hrun⟩

theorem length_of_rpnRun {toks : List (RpnTok α)} {s s' : List (BoolExpr α)}
    (h : rpnRun bound ok toks s = some s') :
    (s'.length : ℤ) = s.length + (toks.map RpnTok.effect).sum := by
  induction toks generalizing s with
  | nil =>
    obtain rfl := Option.some.inj h
    simp
  | cons tok toks ih =>
    rw [rpnRun] at h
    split at h
    · exact absurd h (by simp)
    · rename_i s₁ hstep
      rw [ih h, length_of_rpnStep hstep, List.map_cons, List.sum_cons, add_assoc]

/-- **The well-formed strings** are the balanced ones. -/
theorem exists_rpnRun_eq_singleton_iff {toks : List (RpnTok α)}
    (hok : ∀ a, .arg a ∈ toks → ok a = true) :
    (∃ e, rpnRun bound ok toks [] = some [e]) ↔ Balanced bound (toks.map RpnTok.effect) := by
  have hruns := rpnRun_isSome_iff (s := []) (Nat.zero_le bound) hok
  simp only [List.length_nil, Int.natCast_zero, zero_add] at hruns
  unfold Balanced
  rw [List.length_map, ← hruns]
  constructor
  · rintro ⟨e, hrun⟩
    have hlen := length_of_rpnRun hrun
    simp only [List.length_cons, List.length_nil] at hlen
    exact ⟨⟨_, hrun⟩, by omega⟩
  · rintro ⟨⟨s', hrun⟩, hsum⟩
    have hlen := length_of_rpnRun hrun
    rw [hsum, List.length_nil] at hlen
    obtain ⟨e, rfl⟩ := List.length_eq_one_iff.mp (by omega : s'.length = 1)
    exact ⟨e, hrun⟩

end Machine

end LibSigma.Library
