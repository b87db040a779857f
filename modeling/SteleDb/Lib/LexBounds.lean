import Mathlib.Data.List.Lex

/-!
# Short bounds of lexicographically ordered lists

A prefix of a list is a lower bound of the list, and of every list that extends the prefix.  To get
an upper bound of them, the prefix has to be rounded up: entries with no successor are dropped from
its end and the last entry that is left is replaced by its successor (`roundUp`).  If nothing is
left, the prefix has no short upper bound.

* `take_le` : a prefix is a lower bound;
* `lt_roundUp` : a rounded prefix is an upper bound.
-/

namespace SteleDb

namespace LexBounds

variable {α : Type*} {succ : α → Option α}

/-- Round up a list that is given from its end. -/
def roundUpRev (succ : α → Option α) : List α → List α
  | [] => []
  | a :: rest =>
    match succ a with
    | some b => b :: rest
    | none => roundUpRev succ rest

/-- Drop the entries without a successor from the end and replace the last entry left by its
successor. -/
def roundUp (succ : α → Option α) (l : List α) : List α := (roundUpRev succ l.reverse).reverse

theorem take_le [LinearOrder α] (n : ℕ) (l : List α) : l.take n ≤ l :=
  not_lt.1 fun h => (List.take_prefix n l).le h

theorem lt_roundUpRev [LT α] (hsucc : ∀ a b, succ a = some b → a < b) {l : List α}
    (h : roundUpRev succ l ≠ []) (tail : List α) :
    l.reverse ++ tail < (roundUpRev succ l).reverse := by
  induction l generalizing tail with
  | nil => exact absurd rfl h
  | cons a rest ih =>
    rw [List.reverse_cons, List.append_assoc]
    cases hs : succ a with
    | some b =>
      -- the lists agree up to here, and `a < b` decides
      simp only [roundUpRev, hs, List.reverse_cons]
      exact List.append_left_lt (List.cons_lt_cons_iff.2 (.inl (hsucc a b hs)))
    | none =>
      simp only [roundUpRev, hs] at h ⊢
      exact ih h (a :: tail)

/-- **A rounded prefix is above every list with that prefix.** -/
theorem lt_roundUp [LT α] (hsucc : ∀ a b, succ a = some b → a < b) {l : List α}
    (h : roundUp succ l ≠ []) (tail : List α) : l ++ tail < roundUp succ l := by
  have hne : roundUpRev succ l.reverse ≠ [] := fun he => h (by rw [roundUp, he]; rfl)
  simpa only [roundUp, List.reverse_reverse] using lt_roundUpRev hsucc hne tail

end LexBounds

end SteleDb
