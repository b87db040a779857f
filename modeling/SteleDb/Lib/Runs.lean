import Mathlib.Data.List.Basic

/-!
# Runs of a machine

A machine moves from state to state as its inputs come in.  `Runs.after` is the state after a list
of inputs, and `Runs.Along` says that every step of a run has a property, which may speak of the
state before the step and of the input.
-/

namespace SteleDb

namespace Runs

variable {σ ι : Type*} (step : σ → ι → σ)

/-- The state after a run. -/
def after (s : σ) (l : List ι) : σ := l.foldl step s

/-- Every step of the run has the property. -/
def Along (P : σ → ι → Prop) : σ → List ι → Prop
  | _, [] => True
  | s, i :: l => P s i ∧ Along P (step s i) l

variable {step} {P Q : σ → ι → Prop} {I : σ → Prop} {s : σ} {l l' : List ι} {i : ι}

theorem after_cons : after step s (i :: l) = after step (step s i) l := rfl

theorem after_append : after step s (l ++ l') = after step (after step s l) l' :=
  List.foldl_append

theorem after_concat : after step s (l ++ [i]) = step (after step s l) i := by
  rw [after_append]
  rfl

instance Along.decidable [∀ s i, Decidable (P s i)] :
    (s : σ) → (l : List ι) → Decidable (Along step P s l)
  | _, [] => .isTrue trivial
  | s, i :: l =>
    have := Along.decidable (step s i) l
    inferInstanceAs (Decidable (_ ∧ _))

theorem along_append :
    Along step P s (l ++ l') ↔ Along step P s l ∧ Along step P (after step s l) l' := by
  induction l generalizing s with
  | nil => simp [Along, after]
  | cons i l ih =>
    rw [List.cons_append, Along, Along, ih, after_cons, and_assoc]

/-- The step at a position of the run. -/
theorem Along.at_split (h : Along step P s (l ++ i :: l')) :
    P (after step s l) i ∧ Along step P (after step s (l ++ [i])) l' := by
  obtain ⟨hi, hrest⟩ := (along_append.1 h).2
  rw [after_concat]
  exact ⟨hi, hrest⟩

/-- What every step keeps holds after the run. -/
theorem Along.invariant (hstep : ∀ s i, I s → P s i → I (step s i)) (hs : I s)
    (h : Along step P s l) : I (after step s l) := by
  induction l generalizing s with
  | nil => exact hs
  | cons i l ih => exact ih (hstep s i hs h.1) h.2

theorem Along.and (h : Along step P s l) (h' : Along step Q s l) :
    Along step (fun s i => P s i ∧ Q s i) s l := by
  induction l generalizing s with
  | nil => trivial
  | cons i l ih => exact ⟨⟨h.1, h'.1⟩, ih h.2 h'.2⟩

/-- What an invariant gives at a step it gives at every step of the run. -/
theorem Along.of_invariant (hstep : ∀ s i, I s → P s i → I (step s i))
    (himp : ∀ s i, I s → P s i → Q s i) (hs : I s) (h : Along step P s l) : Along step Q s l := by
  induction l generalizing s with
  | nil => trivial
  | cons i l ih => exact ⟨himp s i hs h.1, ih (hstep s i hs h.1) h.2⟩

/-- A property that was lost was lost at some step. -/
theorem exists_first_loss (hs : I s) (hl : ¬ I (after step s l)) :
    ∃ l₁ i l₂, l = l₁ ++ i :: l₂ ∧ I (after step s l₁) ∧ ¬ I (step (after step s l₁) i) := by
  induction l generalizing s with
  | nil => exact absurd hs hl
  | cons i l ih =>
    by_cases hi : I (step s i)
    · obtain ⟨l₁, j, l₂, rfl, hkept, hlost⟩ := ih hi hl
      exact ⟨i :: l₁, j, l₂, rfl, hkept, hlost⟩
    · exact ⟨[], i, l, rfl, hs, hi⟩

end Runs

end SteleDb
