import Mathlib.Data.List.Basic
import Mathlib.Algebra.Order.Group.Nat
import Mathlib.Algebra.Order.Ring.Nat
import Mathlib.Tactic.Ring

/-!
# Lists cut into chunks of one length

`exactChunks n l` are the full chunks of `n` elements at the front of `l` and `chunkRest n l` is
what they leave over, fewer than `n` elements.  What follows a list is cut as if it followed the
rest of the list alone (`exactChunks_append_rest`): a reader that works on full chunks as they come
and keeps the rest sees the chunks of the whole.
-/

namespace Chunks

variable {α : Type*} {n : ℕ} {a l : List α}

/-- The full chunks of `n` elements. -/
def exactChunks (n : ℕ) (l : List α) : List (List α) :=
  (List.range (l.length / n)).map fun i => (l.drop (i * n)).take n

/-- What the full chunks leave over. -/
def chunkRest (n : ℕ) (l : List α) : List α := l.drop (l.length / n * n)

theorem length_chunkRest (n : ℕ) (l : List α) : (chunkRest n l).length = l.length % n := by
  rw [chunkRest, List.length_drop, ← Nat.mod_eq_sub_div_mul]

theorem take_append_chunkRest (n : ℕ) (l : List α) :
    l.take (l.length / n * n) ++ chunkRest n l = l :=
  List.take_append_drop _ _

@[simp] theorem length_exactChunks (n : ℕ) (l : List α) :
    (exactChunks n l).length = l.length / n := by
  rw [exactChunks, List.length_map, List.length_range]

theorem length_of_mem_exactChunks (hn : 0 < n) {c : List α} (hc : c ∈ exactChunks n l) :
    c.length = n := by
  obtain ⟨i, hi, rfl⟩ := List.mem_map.1 hc
  have hle : (i + 1) * n ≤ l.length := (Nat.le_div_iff_mul_le hn).1 (List.mem_range.1 hi)
  have hsucc : (i + 1) * n = i * n + n := Nat.succ_mul i n
  rw [List.length_take, List.length_drop]
  omega

/-- Chunk `i` starts at `i * n`. -/
theorem getElem?_exactChunks (n : ℕ) (l : List α) {i : ℕ} (hi : i < l.length / n) :
    (exactChunks n l)[i]? = some ((l.drop (i * n)).take n) := by
  rw [exactChunks, List.getElem?_map, List.getElem?_range hi]
  rfl

theorem exactChunks_of_lt (h : l.length < n) : exactChunks n l = [] := by
  rw [exactChunks, Nat.div_eq_of_lt h]
  rfl

@[simp] theorem exactChunks_nil (n : ℕ) : exactChunks n ([] : List α) = [] := by
  rw [exactChunks, List.length_nil, Nat.zero_div]
  rfl

/-- A chunk in front comes out first. -/
theorem exactChunks_chunk_append (hn : 0 < n) (ha : a.length = n) (l : List α) :
    exactChunks n (a ++ l) = a :: exactChunks n l := by
  have hcount : (a ++ l).length / n = l.length / n + 1 := by
    rw [List.length_append, ha, Nat.add_div_left _ hn]
  rw [exactChunks, hcount, List.range_succ_eq_map, List.map_cons, List.map_map, exactChunks]
  congr 1
  · rw [Nat.zero_mul, List.drop_zero, List.take_left' ha]
  · refine List.map_congr_left fun i _ => ?_
    have hi : (i + 1) * n = a.length + i * n := by rw [ha]; ring
    simp only [Function.comp_apply, Nat.succ_eq_add_one, hi, List.drop_append,
      List.drop_eq_nil_of_le (Nat.le_add_right a.length (i * n)), List.nil_append,
      Nat.add_sub_cancel_left]

theorem exactChunks_chunk (hn : 0 < n) (ha : a.length = n) : exactChunks n a = [a] := by
  have h := exactChunks_chunk_append hn ha []
  rwa [List.append_nil, exactChunks_nil] at h

/-- Full chunks in front come out first. -/
theorem exactChunks_append (hn : 0 < n) (hdvd : n ∣ a.length) (l : List α) :
    exactChunks n (a ++ l) = exactChunks n a ++ exactChunks n l := by
  obtain ⟨k, hk⟩ := hdvd
  induction k generalizing a with
  | zero =>
    obtain rfl : a = [] := List.length_eq_zero_iff.1 (by rw [hk, Nat.mul_zero])
    rw [List.nil_append, exactChunks_nil, List.nil_append]
  | succ k ih =>
    have hsplit : a.take n ++ a.drop n = a := List.take_append_drop n a
    have hlen : a.length = n * k + n := by rw [hk]; ring
    have htake : (a.take n).length = n := by rw [List.length_take]; omega
    have hdrop : (a.drop n).length = n * k := by rw [List.length_drop]; omega
    rw [← hsplit, List.append_assoc, exactChunks_chunk_append hn htake,
      exactChunks_chunk_append hn htake, ih hdrop, List.cons_append]

/-- The rest has no full chunk. -/
theorem exactChunks_chunkRest (hn : 0 < n) (l : List α) : exactChunks n (chunkRest n l) = [] :=
  exactChunks_of_lt (by rw [length_chunkRest]; exact Nat.mod_lt _ hn)

/-- What follows a list is cut as if it followed the rest of it. -/
theorem exactChunks_append_rest (hn : 0 < n) (l tail : List α) :
    exactChunks n (l ++ tail) = exactChunks n l ++ exactChunks n (chunkRest n l ++ tail) := by
  have hdvd : n ∣ (l.take (l.length / n * n)).length := by
    rw [List.length_take, Nat.min_eq_left (Nat.div_mul_le_self _ _)]
    exact Nat.dvd_mul_left _ _
  have hfull : exactChunks n (l.take (l.length / n * n)) = exactChunks n l := by
    conv_rhs => rw [← take_append_chunkRest n l]
    rw [exactChunks_append hn hdvd, exactChunks_chunkRest hn, List.append_nil]
  conv_lhs => rw [← take_append_chunkRest n l]
  rw [List.append_assoc, exactChunks_append hn hdvd, hfull]

/-! ### Against `toChunks` -/

theorem toChunks_go (hn : 0 < n) (l : List α) (acc : Array α) (done : Array (List α))
    (hacc : 0 < acc.size) (hle : acc.size ≤ n) (hdvd : n ∣ acc.size + l.length) :
    List.toChunks.go n l acc done = done.toList ++ exactChunks n (acc.toList ++ l) := by
  induction l generalizing acc done with
  | nil =>
    have hsize : acc.size = n := Nat.le_antisymm hle (Nat.le_of_dvd hacc (by simpa using hdvd))
    rw [List.toChunks.go, List.append_nil, exactChunks_chunk hn (by simpa using hsize),
      Array.toList_push]
  | cons x l ih =>
    rw [List.toChunks.go]
    by_cases hfull : acc.size = n
    · have hrest : n ∣ 1 + l.length := by
        rw [List.length_cons, hfull, Nat.add_comm l.length] at hdvd
        exact (Nat.dvd_add_right (dvd_refl n)).1 hdvd
      have hchunk : exactChunks n (acc.toList ++ x :: l) = acc.toList :: exactChunks n (x :: l) :=
        exactChunks_chunk_append hn (by simpa using hfull) _
      rw [if_pos (by simpa using hfull), ih _ _ (by simp) (by simp; omega) (by simpa using hrest),
        hchunk]
      simp
    · have hrest : n ∣ acc.size + 1 + l.length := by
        rwa [List.length_cons, Nat.add_comm l.length, ← Nat.add_assoc] at hdvd
      rw [if_neg (by simpa using hfull), ih _ _ (by simp) (by simp; omega) (by simpa using hrest)]
      simp

/-- A list of full chunks, cut either way. -/
theorem toChunks_eq_exactChunks (hn : 0 < n) (hdvd : n ∣ l.length) :
    l.toChunks n = exactChunks n l := by
  rcases l with _ | ⟨x, l⟩
  · rw [exactChunks_nil, List.toChunks]
  · obtain ⟨m, rfl⟩ : ∃ m, n = m + 1 := ⟨n - 1, by omega⟩
    have hgo : (x :: l).toChunks (m + 1) = List.toChunks.go (m + 1) l #[x] #[] := rfl
    rw [hgo, toChunks_go hn l _ _ (by simp) (by simp) (by simpa [Nat.add_comm] using hdvd)]
    simp

end Chunks
