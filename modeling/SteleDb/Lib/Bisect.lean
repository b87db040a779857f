import Mathlib.Data.List.TakeWhile

/-!
# Bisection

Of a list that begins with the elements of a property and goes on with the others, bisection finds
where the others begin.

* `partitionPoint_eq` : in a list that is split by the property the result is the length of the
  first part.
-/

namespace SteleDb

variable {α : Type*}

/-- Halve a window of `size` elements from `base` on until one is left; `fuel` bounds the turns. -/
def bisect (p : α → Bool) (l : List α) : ℕ → ℕ → ℕ → ℕ
  | 0, base, _ => base
  | fuel + 1, base, size =>
    if size ≤ 1 then base
    else
      let mid := base + size / 2
      bisect p l fuel (if l[mid]?.any p then mid else base) (size - size / 2)

/-- `slice::partition_point`. -/
def partitionPoint (p : α → Bool) (l : List α) : ℕ :=
  if l = [] then 0
  else
    let base := bisect p l l.length 0 l.length
    base + if l[base]?.any p then 1 else 0

section

variable {p : α → Bool} {l l' : List α}

theorem any_getElem?_append (h : ∀ a ∈ l, p a = true) (h' : ∀ a ∈ l', p a = false) (i : ℕ) :
    (l ++ l')[i]?.any p = true ↔ i < l.length := by
  by_cases hi : i < l.length
  · rw [List.getElem?_append_left hi, List.getElem?_eq_getElem hi]
    simp [hi, h]
  · rw [List.getElem?_append_right (not_lt.1 hi)]
    refine ⟨fun hany => ?_, fun hlt => absurd hlt hi⟩
    cases hget : l'[i - l.length]? with
    | none =>
      rw [hget] at hany
      cases hany
    | some a =>
      rw [hget, Option.any_some, h' a (List.mem_of_getElem? hget)] at hany
      cases hany

/-- The window always holds the last element of the first part, or begins the list. -/
theorem bisect_append (h : ∀ a ∈ l, p a = true) (h' : ∀ a ∈ l', p a = false) {fuel base size : ℕ}
    (hfuel : size ≤ fuel) (hsize : 0 < size) (hbase : base = 0 ∨ base < l.length)
    (hend : l.length ≤ base + size) :
    bisect p (l ++ l') fuel base size = l.length - 1 := by
  induction fuel generalizing base size with
  | zero => omega
  | succ fuel ih =>
    rw [bisect]
    have hmid := any_getElem?_append h h' (base + size / 2)
    split_ifs with h1
    · omega
    · dsimp only
      by_cases hlt : base + size / 2 < l.length
      · rw [if_pos (hmid.2 hlt)]
        exact ih (by omega) (by omega) (.inr hlt) (by omega)
      · rw [if_neg (mt hmid.1 hlt)]
        exact ih (by omega) (by omega) hbase (by omega)

/-- **Bisection finds the first part of a list that is split by the property.** -/
theorem partitionPoint_eq (h : ∀ a ∈ l, p a = true) (h' : ∀ a ∈ l', p a = false) :
    partitionPoint p (l ++ l') = l.length := by
  rw [partitionPoint]
  split_ifs with hnil
  · rw [(List.append_eq_nil_iff.1 hnil).1]
    rfl
  · have hpos := List.length_pos_iff.2 hnil
    have hfound := bisect_append h h' le_rfl hpos (.inl rfl)
      (by rw [List.length_append]; omega)
    dsimp only
    rw [hfound]
    have hlast := any_getElem?_append h h' (l.length - 1)
    by_cases hzero : l.length = 0
    · rw [if_neg (mt hlast.1 (by omega))]
      omega
    · rw [if_pos (hlast.2 (by omega))]
      omega

end

end SteleDb
