import Mathlib.Data.List.TakeWhile

/-!
# Nested scopes

What is written is written in the innermost open scope.  Rolling back to a scope forgets what was
written in it and in the scopes inside it, and leaves it open; releasing a scope hands all of that
to the scope around it.  A name may be used again while a scope of that name is open: it means the
innermost one.

* `written_rollbackTo` : what is left is what was written before the scope was opened;
* `written_release` : releasing forgets nothing.
-/

namespace SteleDb

variable {ν α : Type*}

/-- What was written, by the scopes it was written in. -/
structure Scopes (ν α : Type*) where
  /-- What was written outside every open scope. -/
  base : List α := []
  /-- The open scopes, innermost first. -/
  opened : List (ν × List α) := []

namespace Scopes

/-- What was written before and in some scopes, oldest first. -/
def writtenIn (base : List α) : List (ν × List α) → List α
  | [] => base
  | scope :: outer => writtenIn base outer ++ scope.2

/-- All that is written, oldest first. -/
def written (s : Scopes ν α) : List α := writtenIn s.base s.opened

/-- Write in the innermost scope. -/
def write (s : Scopes ν α) (ws : List α) : Scopes ν α :=
  match s.opened with
  | [] => { s with base := s.base ++ ws }
  | scope :: outer => { s with opened := (scope.1, scope.2 ++ ws) :: outer }

/-- Open a scope inside the innermost one. -/
def enter (s : Scopes ν α) (name : ν) : Scopes ν α :=
  { s with opened := (name, []) :: s.opened }

theorem writtenIn_append (base : List α) (inner outer : List (ν × List α)) :
    writtenIn base (inner ++ outer) = writtenIn (writtenIn base outer) inner := by
  induction inner with
  | nil => rfl
  | cons scope inner ih =>
    rw [List.cons_append, writtenIn, ih]
    rfl

theorem writtenIn_base (base ws : List α) (inner : List (ν × List α)) :
    writtenIn (base ++ ws) inner = base ++ writtenIn ws inner := by
  induction inner with
  | nil => rfl
  | cons scope inner ih =>
    rw [writtenIn, ih, List.append_assoc]
    rfl

@[simp] theorem written_write (s : Scopes ν α) (ws : List α) :
    (s.write ws).written = s.written ++ ws := by
  obtain ⟨base, opened⟩ := s
  cases opened with
  | nil => rfl
  | cons scope outer => simp [write, written, writtenIn]

@[simp] theorem written_enter (s : Scopes ν α) (name : ν) : (s.enter name).written = s.written := by
  simp [enter, written, writtenIn]

section

variable [DecidableEq ν]

/-- Forget what was written since the innermost scope of a name was opened. -/
def rollbackTo (s : Scopes ν α) (name : ν) : Scopes ν α :=
  match s.opened.dropWhile fun scope => scope.1 ≠ name with
  | [] => s
  | scope :: outer => { s with opened := (scope.1, []) :: outer }

/-- Hand what was written since the innermost scope of a name was opened to the scope around it. -/
def release (s : Scopes ν α) (name : ν) : Scopes ν α :=
  match s.opened.dropWhile fun scope => scope.1 ≠ name with
  | [] => s
  | scope :: outer =>
    write { s with opened := outer }
      (writtenIn scope.2 (s.opened.takeWhile fun scope => scope.1 ≠ name))

variable {s : Scopes ν α} {name : ν} {scope : ν × List α} {outer : List (ν × List α)}

theorem rollbackTo_of_none (h : s.opened.dropWhile (fun scope => scope.1 ≠ name) = []) :
    s.rollbackTo name = s := by
  rw [rollbackTo, h]

theorem release_of_none (h : s.opened.dropWhile (fun scope => scope.1 ≠ name) = []) :
    s.release name = s := by
  rw [release, h]

theorem rollbackTo_of_scope
    (h : s.opened.dropWhile (fun scope => scope.1 ≠ name) = scope :: outer) :
    s.rollbackTo name = { s with opened := (scope.1, []) :: outer } := by
  rw [rollbackTo, h]

theorem release_of_scope
    (h : s.opened.dropWhile (fun scope => scope.1 ≠ name) = scope :: outer) :
    s.release name = write { s with opened := outer }
      (writtenIn scope.2 (s.opened.takeWhile fun scope => scope.1 ≠ name)) := by
  rw [release, h]

/-- What was written before a scope, in it, and in the scopes inside it. -/
theorem written_of_scope (h : s.opened.dropWhile (fun scope => scope.1 ≠ name) = scope :: outer) :
    s.written = writtenIn s.base outer ++
      writtenIn scope.2 (s.opened.takeWhile fun scope => scope.1 ≠ name) := by
  have hsplit := List.takeWhile_append_dropWhile (p := fun scope => decide (scope.1 ≠ name))
    (l := s.opened)
  rw [h] at hsplit
  calc s.written = writtenIn s.base (s.opened.takeWhile (fun scope => scope.1 ≠ name) ++
        scope :: outer) := by rw [hsplit, written]
    _ = writtenIn (writtenIn s.base outer ++ scope.2)
        (s.opened.takeWhile fun scope => scope.1 ≠ name) := by rw [writtenIn_append, writtenIn]
    _ = _ := writtenIn_base _ _ _

theorem written_rollbackTo
    (h : s.opened.dropWhile (fun scope => scope.1 ≠ name) = scope :: outer) :
    (s.rollbackTo name).written = writtenIn s.base outer := by
  rw [rollbackTo_of_scope h, written, writtenIn, List.append_nil]

@[simp] theorem written_release (s : Scopes ν α) (name : ν) :
    (s.release name).written = s.written := by
  cases h : s.opened.dropWhile fun scope => scope.1 ≠ name with
  | nil => rw [release_of_none h]
  | cons scope outer =>
    rw [release_of_scope h, written_write, written_of_scope h, written]

theorem rollbackTo_sublist (s : Scopes ν α) (name : ν) :
    (s.rollbackTo name).written.Sublist s.written := by
  cases h : s.opened.dropWhile fun scope => scope.1 ≠ name with
  | nil => exact (rollbackTo_of_none h).symm ▸ List.Sublist.refl _
  | cons scope outer =>
    rw [written_rollbackTo h, written_of_scope h]
    exact List.sublist_append_left _ _

end

end Scopes

end SteleDb
