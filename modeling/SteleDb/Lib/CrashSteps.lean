import Mathlib.Data.List.Basic

/-!
# Sequences of operations that can fail or be cut

A procedure is a list of operations.  Each operation changes a state and succeeds or fails, as an
outcome decides; the procedure ends with the first that fails.  A crash can cut it after any number
of operations.

`Guarded exec d I s ops Q` says what such a procedure guarantees from `s`: the state at every point
where it can be cut satisfies the *crash condition* `I`, and the state after all operations have
succeeded satisfies `Q`.  The rules follow the list of operations.
-/

namespace SteleDb

section CrashSteps

variable {σ ω ρ : Type*} (exec : σ → ω → ρ → σ × Bool) (d : ρ)

/-- Run operations up to the first that fails; outcomes that are not given are `d`. -/
def runOps : σ → List ω → List ρ → σ × Bool
  | s, [], _ => (s, true)
  | s, op :: ops, os =>
    match exec s op (os.headD d) with
    | (s', true) => runOps s' ops os.tail
    | (s', false) => (s', false)

/-- Every state at which the operations can be cut satisfies `I`, and the state after all have
succeeded satisfies `Q`. -/
def Guarded (I : σ → Prop) (s : σ) (ops : List ω) (Q : σ → Prop) : Prop :=
  ∀ os, (∀ n, I (runOps exec d s (ops.take n) os).1) ∧
    ((runOps exec d s ops os).2 = true → Q (runOps exec d s ops os).1)

namespace Guarded

variable {exec d} {I J : σ → Prop} {Q R : σ → Prop} {s : σ} {op : ω} {ops ops' : List ω}

theorem nil (hI : I s) (hQ : Q s) : Guarded exec d I s [] Q :=
  fun _ => ⟨fun _ => by rw [List.take_nil]; exact hI, fun _ => hQ⟩

/-- The first operation, whatever its outcome. -/
theorem cons (hI : I s)
    (h : ∀ o, I (exec s op o).1 ∧
      ((exec s op o).2 = true → Guarded exec d I (exec s op o).1 ops Q)) :
    Guarded exec d I s (op :: ops) Q := by
  intro os
  obtain ⟨hI', hrest⟩ := h (os.headD d)
  rcases hx : exec s op (os.headD d) with ⟨s', ok⟩
  rw [hx] at hI' hrest
  cases ok with
  | false =>
    refine ⟨fun n => ?_, fun h => ?_⟩
    · cases n with
      | zero => exact hI
      | succ n => rw [List.take_succ_cons, runOps, hx]; exact hI'
    · rw [runOps, hx] at h; cases h
  | true =>
    obtain ⟨hcut, hend⟩ := hrest rfl os.tail
    refine ⟨fun n => ?_, fun h => ?_⟩
    · cases n with
      | zero => exact hI
      | succ n => rw [List.take_succ_cons, runOps, hx]; exact hcut n
    · rw [runOps, hx] at h ⊢; exact hend h

theorem mono (h : Guarded exec d I s ops Q) (hI : ∀ s, I s → J s) (hQ : ∀ s, Q s → R s) :
    Guarded exec d J s ops R :=
  fun os => ⟨fun n => hI _ ((h os).1 n), fun hok => hQ _ ((h os).2 hok)⟩

/-- The state at the start satisfies the crash condition. -/
theorem start (h : Guarded exec d I s ops Q) : I s := by
  simpa [runOps] using (h []).1 0

/-- One procedure after the other. -/
theorem append (h : Guarded exec d I s ops R)
    (h' : ∀ s', R s' → Guarded exec d I s' ops' Q) : Guarded exec d I s (ops ++ ops') Q := by
  induction ops generalizing s with
  | nil => exact h' s ((h []).2 rfl)
  | cons op ops ih =>
    refine cons h.start fun o => ?_
    have hstep : ∀ os, runOps exec d s (op :: ops) (o :: os) =
        match exec s op o with
        | (s', true) => runOps exec d s' ops os
        | (s', false) => (s', false) := fun _ => rfl
    have hcut : ∀ os n, I (match exec s op o with
        | (s', true) => runOps exec d s' (ops.take n) os
        | (s', false) => (s', false)).1 := fun os n => by
      have := (h (o :: os)).1 (n + 1)
      rwa [List.take_succ_cons] at this
    rcases hx : exec s op o with ⟨s', ok⟩
    rw [hx] at hstep hcut
    cases ok with
    | false => exact ⟨hcut [] 0, fun h => (nomatch h)⟩
    | true =>
      refine ⟨hcut [] 0, fun _ => ih fun os => ⟨hcut os, fun hok => ?_⟩⟩
      have := (h (o :: os)).2
      rw [hstep] at this
      exact this hok

end Guarded

end CrashSteps

end SteleDb
