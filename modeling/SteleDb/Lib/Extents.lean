import Mathlib.Data.List.Forall2
import Mathlib.Algebra.Order.Group.Nat

/-!
# Pieces laid one after another

A file that consists of pieces, and a directory that says where each of them starts: `offsets` adds
up the lengths, `slice` is what stands at an offset.  Every piece is found at its own offset
(`forall₂_offsets`), and what changes elsewhere does not change it (`slice_congr`).
-/

namespace Extents

variable {β : Type*}

/-- What stands at `offset`, `length` units of it. -/
def slice (file : List β) (offset length : ℕ) : List β := (file.drop offset).take length

/-- Where pieces start that are laid one after another from `base` on. -/
def offsets (base : ℕ) : List (List β) → List ℕ
  | [] => []
  | piece :: rest => base :: offsets (base + piece.length) rest

theorem length_slice {file : List β} {offset length : ℕ} (h : offset + length ≤ file.length) :
    (slice file offset length).length = length := by
  rw [slice, List.length_take, List.length_drop]
  omega

theorem getElem?_slice (file : List β) {offset length i : ℕ} (hi : i < length) :
    (slice file offset length)[i]? = file[offset + i]? := by
  rw [slice, List.getElem?_take_of_lt hi, List.getElem?_drop]

/-- A piece is found behind what precedes it. -/
theorem slice_append (before piece after : List β) :
    slice (before ++ (piece ++ after)) before.length piece.length = piece := by
  rw [slice, List.drop_left, List.take_left]

theorem slice_of_eq (before after : List β) {file piece : List β} {offset length : ℕ}
    (hfile : file = before ++ (piece ++ after)) (hoffset : before.length = offset)
    (hlength : piece.length = length) : slice file offset length = piece := by
  subst hfile hoffset hlength
  exact slice_append before piece after

/-- A part of a slice. -/
theorem slice_slice (file : List β) {offset length start n : ℕ} (h : start + n ≤ length) :
    slice (slice file offset length) start n = slice file (offset + start) n := by
  rw [slice, slice, slice, List.drop_take, List.drop_drop, List.take_take]
  congr 1
  omega

/-- What stands elsewhere does not count. -/
theorem slice_congr {file file' : List β} {offset length : ℕ}
    (h : ∀ i, offset ≤ i → i < offset + length → file[i]? = file'[i]?) :
    slice file offset length = slice file' offset length := by
  refine List.ext_getElem? fun i => ?_
  by_cases hi : i < length
  · rw [getElem?_slice _ hi, getElem?_slice _ hi, h _ (by omega) (by omega)]
  · rw [List.getElem?_eq_none (by rw [slice, List.length_take]; omega),
      List.getElem?_eq_none (by rw [slice, List.length_take]; omega)]

/-- Two slices one behind the other. -/
theorem slice_add (file : List β) (offset m n : ℕ) :
    slice file offset (m + n) = slice file offset m ++ slice file (offset + m) n := by
  rw [slice, slice, slice, ← List.drop_drop, List.take_add]

/-- What differs from a file only within a piece has another piece there. -/
theorem eq_replace {file file' before piece after : List β}
    (hfile : file = before ++ (piece ++ after)) (hlen : file.length = file'.length)
    (h : ∀ i, i < before.length ∨ before.length + piece.length ≤ i → file[i]? = file'[i]?) :
    file' = before ++ (slice file' before.length piece.length ++ after) := by
  subst hfile
  simp only [List.length_append] at hlen
  have hbefore : file'.take before.length = before := by
    refine List.ext_getElem? fun i => ?_
    by_cases hi : i < before.length
    · rw [List.getElem?_take_of_lt hi, ← h i (.inl hi), List.getElem?_append_left hi]
    · rw [List.getElem?_eq_none (by rw [List.length_take]; omega), List.getElem?_eq_none (by omega)]
  have hafter : (file'.drop before.length).drop piece.length = after := by
    refine List.ext_getElem? fun i => ?_
    rw [List.drop_drop, List.getElem?_drop, ← h _ (.inr (by omega)),
      List.getElem?_append_right (by omega), List.getElem?_append_right (by omega)]
    congr 1
    omega
  calc file' = file'.take before.length ++ ((file'.drop before.length).take piece.length ++
        (file'.drop before.length).drop piece.length) := by
        rw [List.take_append_drop, List.take_append_drop]
    _ = _ := by rw [hbefore, hafter, slice]

theorem offsets_append (base : ℕ) (pieces more : List (List β)) :
    offsets base (pieces ++ more) =
      offsets base pieces ++ offsets (base + pieces.flatten.length) more := by
  induction pieces generalizing base with
  | nil => rfl
  | cons piece pieces ih =>
    rw [List.cons_append, offsets, offsets, ih, List.cons_append, List.flatten_cons,
      List.length_append, Nat.add_assoc]

/-- **Every piece is found at its offset.** -/
theorem forall₂_offsets (before after : List β) (pieces : List (List β)) :
    List.Forall₂ (fun offset piece =>
      before.length ≤ offset ∧ offset + piece.length ≤ before.length + pieces.flatten.length ∧
        slice (before ++ (pieces.flatten ++ after)) offset piece.length = piece)
      (offsets before.length pieces) pieces := by
  induction pieces generalizing before with
  | nil => exact .nil
  | cons piece pieces ih =>
    have hrest := ih (before ++ piece)
    rw [List.length_append] at hrest
    refine .cons ⟨le_rfl, by simp, ?_⟩ (hrest.imp fun offset later h => ⟨by omega, ?_, ?_⟩)
    · rw [List.flatten_cons, List.append_assoc, slice_append]
    · rw [List.flatten_cons, List.length_append]
      omega
    · rw [List.flatten_cons, List.append_assoc, ← List.append_assoc before]
      exact h.2.2

/-- Later pieces start behind earlier ones. -/
theorem pairwise_offsets (base : ℕ) (pieces : List (List β)) :
    ((offsets base pieces).zip pieces).Pairwise fun p q => p.1 + p.2.length ≤ q.1 := by
  induction pieces generalizing base with
  | nil => exact List.Pairwise.nil
  | cons piece pieces ih =>
    have hle : ∀ (base : ℕ) (pieces : List (List β)), ∀ o ∈ offsets base pieces, base ≤ o := by
      intro base pieces
      induction pieces generalizing base with
      | nil => exact fun o ho => nomatch ho
      | cons piece pieces ih =>
        rintro o (_ | ⟨_, ho⟩)
        · exact le_rfl
        · exact (Nat.le_add_right _ _).trans (ih _ o ho)
    rw [offsets, List.zip_cons_cons, List.pairwise_cons]
    exact ⟨fun q hq => hle _ _ _ (List.of_mem_zip hq).1, ih _⟩

end Extents
