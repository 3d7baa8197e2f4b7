/-!
# Runs that report

A step takes a state and an input and may report.  Two runs that agree until the first report both
report or both do not.

The question "does it ever report" is weaker than "do both report the same", and is the right one
where the state after a report is of no interest.  Comparing runs for it needs agreement up to the
first report only.  That is what `UntilReport` is for: a property of each step that is reached
without a report before it.

The theorem is for machines that are fed in two ways: with whole inputs, or with the parts of each,
one after the other.  If until the first report the parts of an input leave the state that the input
leaves, and one of them reports when the input does, the two ways report alike.

* `reports_flatMap`: **a run over the parts of its inputs reports when the run over the inputs
  does**, if until the first report the parts of an input do what the input does.
-/

namespace LibSigma.Library

variable {σ α β : Type}

section Run

variable (step : σ → α → Bool × σ)

/-- Whether some step reports. -/
def reports : σ → List α → Bool
  | _, [] => false
  | s, x :: xs => (step s x).1 || reports (step s x).2 xs

/-- The state after a run. -/
def stateAfter (s : σ) (xs : List α) : σ := xs.foldl (fun s x => (step s x).2) s

/-- `P` holds of every step up to the first that reports. -/
def UntilReport (P : σ → α → Prop) : σ → List α → Prop
  | _, [] => True
  | s, x :: xs => P s x ∧ ((step s x).1 = false → UntilReport P (step s x).2 xs)

instance decidableUntilReport (P : σ → α → Prop) [∀ s x, Decidable (P s x)] :
    (s : σ) → (xs : List α) → Decidable (UntilReport step P s xs)
  | _, [] => isTrue trivial
  | s, x :: xs =>
    have := decidableUntilReport P (step s x).2 xs
    inferInstanceAs (Decidable (_ ∧ (_ → _)))

end Run

variable {step : σ → α → Bool × σ} {s : σ} {xs ys : List α}

@[simp] theorem reports_append :
    reports step s (xs ++ ys) = (reports step s xs || reports step (stateAfter step s xs) ys) := by
  induction xs generalizing s with
  | nil => rfl
  | cons x xs ih =>
    rw [List.cons_append, reports, ih, reports, Bool.or_assoc]
    rfl

theorem stateAfter_append :
    stateAfter step s (xs ++ ys) = stateAfter step (stateAfter step s xs) ys :=
  List.foldl_append

theorem UntilReport.mono {P Q : σ → α → Prop} (himp : ∀ s x, P s x → Q s x)
    (h : UntilReport step P s xs) : UntilReport step Q s xs := by
  induction xs generalizing s with
  | nil => trivial
  | cons x xs ih => exact ⟨himp s x h.1, fun hquiet => ih (h.2 hquiet)⟩

/-- The first step tells the whole run. -/
theorem reports_cons_congr {s' : σ} {x : α} (h : step s x = step s' x) :
    reports step s (x :: xs) = reports step s' (x :: xs) := by
  rw [reports, reports, h]

theorem stateAfter_cons_congr {s' : σ} {x : α} (h : step s x = step s' x) :
    stateAfter step s (x :: xs) = stateAfter step s' (x :: xs) := by
  rw [stateAfter, stateAfter, List.foldl_cons, List.foldl_cons, h]

theorem UntilReport.and_mem {P : σ → α → Prop} {Q : α → Prop} (h : UntilReport step P s xs)
    (hQ : ∀ x ∈ xs, Q x) : UntilReport step (fun s x => P s x ∧ Q x) s xs := by
  induction xs generalizing s with
  | nil => trivial
  | cons x xs ih =>
    rw [List.forall_mem_cons] at hQ
    exact ⟨⟨h.1, hQ.1⟩, fun hquiet => ih (h.2 hquiet) hQ.2⟩

/-- **A run over the parts of its inputs.** -/
theorem reports_flatMap {step' : σ → β → Bool × σ} {parts : α → List β}
    (h : UntilReport step (fun s x => reports step' s (parts x) = (step s x).1 ∧
      ((step s x).1 = false → stateAfter step' s (parts x) = (step s x).2)) s xs) :
    reports step' s (xs.flatMap parts) = reports step s xs := by
  induction xs generalizing s with
  | nil => rfl
  | cons x xs ih =>
    obtain ⟨⟨hreport, hstate⟩, hrest⟩ := h
    rw [List.flatMap_cons, reports_append, reports, hreport]
    cases hstep : (step s x).1 with
    | true => rfl
    | false =>
      rw [hstate hstep, Bool.false_or, Bool.false_or]
      exact ih (hrest hstep)

/-- A run over the images of the inputs. -/
theorem reports_map (f : β → α) (ys : List β) :
    reports step s (ys.map f) = reports (fun s y => step s (f y)) s ys := by
  induction ys generalizing s with
  | nil => rfl
  | cons y ys ih => rw [List.map_cons, reports, reports, ih]

theorem stateAfter_map (f : β → α) (ys : List β) :
    stateAfter step s (ys.map f) = stateAfter (fun s y => step s (f y)) s ys :=
  List.foldl_map

/-- Steps that agree until the first report. -/
theorem reports_congr {step' : σ → α → Bool × σ}
    (h : UntilReport step (fun s x => step' s x = step s x) s xs) :
    reports step' s xs = reports step s xs := by
  induction xs generalizing s with
  | nil => rfl
  | cons x xs ih =>
    obtain ⟨hstep, hrest⟩ := h
    rw [reports, reports, hstep]
    cases hreport : (step s x).1 with
    | true => rfl
    | false => exact ih (hrest hreport)

end LibSigma.Library
