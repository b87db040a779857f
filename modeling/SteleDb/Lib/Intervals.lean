import Mathlib.Data.List.Sort
import Mathlib.Order.MinMax
import Mathlib.Data.Prod.Lex

/-!
# Half-open intervals

Lists of half-open intervals `[a, b)` over a linear order: their union as a list of disjoint
intervals (`coalesce`), and what they leave of a further interval (`gaps`).  Both are described by
the instants they contain.

`slice t` of values with intervals is what holds at the instant `t`.  An operation on such values
is *snapshot reducible* when slicing its result gives the plain operation on the slices;
`slice_matched`, `slice_spread_coalesce` and `slice_spread_gaps` say so for the pairs of a join,
for the values with a partner and for the values without one.
-/

namespace Intervals

variable {α : Type*} [LinearOrder α] {β γ : Type*}

/-- The instant `t` lies in `[i.1, i.2)`. -/
def Contains (i : α × α) (t : α) : Prop := i.1 ≤ t ∧ t < i.2

instance (i : α × α) (t : α) : Decidable (Contains i t) := inferInstanceAs (Decidable (_ ∧ _))

/-- Some interval of the list contains `t`. -/
def Covers (l : List (α × α)) (t : α) : Prop := ∃ i ∈ l, Contains i t

instance (l : List (α × α)) (t : α) : Decidable (Covers l t) :=
  inferInstanceAs (Decidable (∃ i ∈ l, Contains i t))

@[simp] theorem covers_nil (t : α) : ¬ Covers [] t := by simp [Covers]

@[simp] theorem covers_cons {i : α × α} {l : List (α × α)} {t : α} :
    Covers (i :: l) t ↔ Contains i t ∨ Covers l t := by simp [Covers]

theorem covers_append {l l' : List (α × α)} {t : α} :
    Covers (l ++ l') t ↔ Covers l t ∨ Covers l' t := by simp [Covers, or_and_right, exists_or]

/-- Each interval ends before the next one begins. -/
def Apart (l : List (α × α)) : Prop := l.Pairwise fun i j => i.2 < j.1

/-- No interval is empty. -/
def Proper (l : List (α × α)) : Prop := ∀ i ∈ l, i.1 < i.2

/-- Of intervals that are apart at most one contains an instant. -/
theorem filter_contains_of_apart {l : List (α × α)} (hl : Apart l) (hp : Proper l) (t : α) :
    (l.filter (Contains · t)).length = if Covers l t then 1 else 0 := by
  induction l with
  | nil => simp
  | cons i l ih =>
    obtain ⟨hi, hl⟩ := List.pairwise_cons.1 hl
    have ih := ih hl fun j hj => hp j (List.mem_cons_of_mem _ hj)
    by_cases hc : Contains i t
    · -- the others begin after `i` has ended
      have hrest : ¬ Covers l t := by
        rintro ⟨j, hj, hjt⟩
        exact absurd (hc.2.trans (hi j hj)) (not_lt.2 hjt.1)
      rw [if_neg hrest] at ih
      simp [hc, ih]
    · simp [hc, ih]

/-! ### The union of intervals -/

/-- One pass over intervals sorted by their start: `cur` is the interval being extended. -/
def coalesceFrom (cur : α × α) : List (α × α) → List (α × α)
  | [] => [cur]
  | (a, b) :: rest =>
    if a ≤ cur.2 then coalesceFrom (cur.1, max cur.2 b) rest
    else cur :: coalesceFrom (a, b) rest

/-- Join intervals that overlap or touch; the intervals are sorted by their start. -/
def coalesce : List (α × α) → List (α × α)
  | [] => []
  | i :: rest => coalesceFrom i rest

/-- The intervals begin in order. -/
def ByStart (l : List (α × α)) : Prop := l.Pairwise fun i j => i.1 ≤ j.1

/-- Extending the interval at the front over the next one keeps the order. -/
theorem ByStart.extend {cur j : α × α} {l : List (α × α)} (h : ByStart (cur :: j :: l)) (b : α) :
    ByStart ((cur.1, b) :: l) := by
  obtain ⟨hcur, hrest⟩ := List.pairwise_cons.1 h
  exact List.pairwise_cons.2 ⟨fun k hk => hcur k (List.mem_cons_of_mem _ hk),
    (List.pairwise_cons.1 hrest).2⟩

theorem le_of_mem_coalesceFrom {cur : α × α} {l : List (α × α)} (h : ByStart (cur :: l))
    {i : α × α} (hi : i ∈ coalesceFrom cur l) : cur.1 ≤ i.1 := by
  induction l generalizing cur with
  | nil => rw [List.mem_singleton.1 hi]
  | cons j rest ih =>
    obtain ⟨a, b⟩ := j
    obtain ⟨hcur, hrest⟩ := List.pairwise_cons.1 h
    rw [coalesceFrom] at hi
    split_ifs at hi with hab
    · have hle : (cur.1, max cur.2 b).1 ≤ i.1 := ih (h.extend _) hi
      exact hle
    · rcases List.mem_cons.1 hi with rfl | hi
      · exact le_rfl
      · exact (hcur _ List.mem_cons_self).trans (ih hrest hi)

theorem covers_coalesceFrom {cur : α × α} {l : List (α × α)} (h : ByStart (cur :: l)) (t : α) :
    Covers (coalesceFrom cur l) t ↔ Covers (cur :: l) t := by
  induction l generalizing cur with
  | nil => rfl
  | cons j rest ih =>
    obtain ⟨a, b⟩ := j
    obtain ⟨hcur, hrest⟩ := List.pairwise_cons.1 h
    rw [coalesceFrom]
    split_ifs with hab
    · have hstep : Contains (cur.1, max cur.2 b) t ↔ Contains cur t ∨ Contains (a, b) t := by
        have ha : cur.1 ≤ a := hcur _ List.mem_cons_self
        simp only [Contains, lt_max_iff]
        constructor
        · rintro ⟨h1, h2 | h2⟩
          · exact .inl ⟨h1, h2⟩
          · rcases lt_or_ge t cur.2 with h3 | h3
            · exact .inl ⟨h1, h3⟩
            · exact .inr ⟨hab.trans h3, h2⟩
        · rintro (⟨h1, h2⟩ | ⟨h1, h2⟩)
          · exact ⟨h1, .inl h2⟩
          · exact ⟨ha.trans h1, .inr h2⟩
      rw [ih (h.extend _), covers_cons, covers_cons, covers_cons, hstep, or_assoc]
    · rw [covers_cons, covers_cons, ih hrest]

theorem apart_coalesceFrom {cur : α × α} {l : List (α × α)} (h : ByStart (cur :: l)) :
    Apart (coalesceFrom cur l) := by
  induction l generalizing cur with
  | nil => exact List.pairwise_singleton _ _
  | cons j rest ih =>
    obtain ⟨a, b⟩ := j
    obtain ⟨hcur, hrest⟩ := List.pairwise_cons.1 h
    rw [coalesceFrom]
    split_ifs with hab
    · exact ih (h.extend _)
    · exact List.pairwise_cons.2
        ⟨fun k hk => (not_le.1 hab).trans_le (le_of_mem_coalesceFrom hrest hk), ih hrest⟩

theorem proper_coalesceFrom {cur : α × α} {l : List (α × α)} (h : Proper (cur :: l)) :
    Proper (coalesceFrom cur l) := by
  induction l generalizing cur with
  | nil => exact h
  | cons j rest ih =>
    obtain ⟨a, b⟩ := j
    have hcur : cur.1 < cur.2 := h _ List.mem_cons_self
    have hrest : Proper ((a, b) :: rest) := fun k hk => h k (List.mem_cons_of_mem _ hk)
    rw [coalesceFrom]
    split_ifs with hab
    · refine ih fun k hk => ?_
      rcases List.mem_cons.1 hk with rfl | hk
      · exact lt_max_of_lt_left hcur
      · exact hrest k (List.mem_cons_of_mem _ hk)
    · intro k hk
      rcases List.mem_cons.1 hk with rfl | hk
      · exact hcur
      · exact ih hrest k hk

/-- What bounds every interval bounds their union. -/
theorem stop_le_of_mem_coalesceFrom {cur : α × α} {l : List (α × α)} {hi : α}
    (h : ∀ i ∈ cur :: l, i.2 ≤ hi) {i : α × α} (hmem : i ∈ coalesceFrom cur l) : i.2 ≤ hi := by
  induction l generalizing cur with
  | nil => exact h _ hmem
  | cons j rest ih =>
    obtain ⟨a, b⟩ := j
    have hrest : ∀ k ∈ (a, b) :: rest, k.2 ≤ hi := fun k hk => h k (List.mem_cons_of_mem _ hk)
    rw [coalesceFrom] at hmem
    split_ifs at hmem with hab
    · refine ih (fun k hk => ?_) hmem
      rcases List.mem_cons.1 hk with rfl | hk
      · exact max_le (h _ List.mem_cons_self) (hrest _ List.mem_cons_self)
      · exact hrest k (List.mem_cons_of_mem _ hk)
    · rcases List.mem_cons.1 hmem with rfl | hmem
      · exact h _ List.mem_cons_self
      · exact ih hrest hmem

/-- The union of intervals in any order: sort them, then one pass. -/
def mergeCovers (l : List (α × α)) : List (α × α) :=
  coalesce (l.insertionSort fun i j => toLex i ≤ toLex j)

theorem byStart_insertionSort (l : List (α × α)) :
    ByStart (l.insertionSort fun i j => toLex i ≤ toLex j) := by
  have hsort := List.pairwise_insertionSort (fun i j : α × α => toLex i ≤ toLex j) l
  refine hsort.imp fun {a b} hab => ?_
  rcases Prod.Lex.toLex_le_toLex.1 hab with h | ⟨h, -⟩
  · exact h.le
  · exact h.le

/-- The union contains the instants that the intervals contain, -/
theorem covers_mergeCovers (l : List (α × α)) (t : α) : Covers (mergeCovers l) t ↔ Covers l t := by
  have hsort := byStart_insertionSort l
  have hperm := List.perm_insertionSort (fun i j : α × α => toLex i ≤ toLex j) l
  have hcov : Covers (l.insertionSort fun i j => toLex i ≤ toLex j) t ↔ Covers l t := by
    simp only [Covers, hperm.mem_iff]
  rw [mergeCovers, ← hcov]
  cases hl : l.insertionSort (fun i j => toLex i ≤ toLex j) with
  | nil => rfl
  | cons i rest =>
    rw [hl] at hsort
    exact covers_coalesceFrom hsort t

/-- its intervals are apart, -/
theorem apart_mergeCovers (l : List (α × α)) : Apart (mergeCovers l) := by
  have hsort := byStart_insertionSort l
  rw [mergeCovers]
  cases hl : l.insertionSort (fun i j => toLex i ≤ toLex j) with
  | nil => exact List.Pairwise.nil
  | cons i rest =>
    rw [hl] at hsort
    exact apart_coalesceFrom hsort

/-- none of them is empty, -/
theorem proper_mergeCovers {l : List (α × α)} (h : Proper l) : Proper (mergeCovers l) := by
  have hperm := List.perm_insertionSort (fun i j : α × α => toLex i ≤ toLex j) l
  have hp : Proper (l.insertionSort fun i j => toLex i ≤ toLex j) := fun i hi =>
    h i (hperm.mem_iff.1 hi)
  rw [mergeCovers]
  cases hl : l.insertionSort (fun i j => toLex i ≤ toLex j) with
  | nil => intro i hi; cases hi
  | cons i rest =>
    rw [hl] at hp
    exact proper_coalesceFrom hp

/-- and they lie between the bounds of the intervals. -/
theorem bounds_mergeCovers {l : List (α × α)} {lo hi : α} (h : ∀ i ∈ l, lo ≤ i.1 ∧ i.2 ≤ hi)
    {i : α × α} (hmem : i ∈ mergeCovers l) : lo ≤ i.1 ∧ i.2 ≤ hi := by
  have hsort := byStart_insertionSort l
  have hperm := List.perm_insertionSort (fun i j : α × α => toLex i ≤ toLex j) l
  have hb : ∀ i ∈ l.insertionSort fun i j => toLex i ≤ toLex j, lo ≤ i.1 ∧ i.2 ≤ hi :=
    fun i hi => h i (hperm.mem_iff.1 hi)
  rw [mergeCovers] at hmem
  cases hl : l.insertionSort (fun i j => toLex i ≤ toLex j) with
  | nil => rw [hl] at hmem; cases hmem
  | cons j rest =>
    rw [hl] at hmem hsort hb
    exact ⟨(hb j List.mem_cons_self).1.trans (le_of_mem_coalesceFrom hsort hmem),
      stop_le_of_mem_coalesceFrom (fun k hk => (hb k hk).2) hmem⟩

/-! ### The difference of intervals -/

/-- What the intervals of the list leave of `[cursor, hi)`. -/
def gaps (hi : α) : α → List (α × α) → List (α × α)
  | cursor, [] => if cursor < hi then [(cursor, hi)] else []
  | cursor, (a, b) :: rest =>
    (if cursor < a then [(cursor, a)] else []) ++ gaps hi (max cursor b) rest

theorem le_of_mem_gaps {hi cursor : α} {l : List (α × α)} {i : α × α} (h : i ∈ gaps hi cursor l) :
    cursor ≤ i.1 := by
  induction l generalizing cursor with
  | nil =>
    rw [gaps] at h
    split_ifs at h
    · rw [List.mem_singleton.1 h]
    · cases h
  | cons j rest ih =>
    obtain ⟨a, b⟩ := j
    rw [gaps, List.mem_append] at h
    rcases h with h | h
    · split_ifs at h
      · rw [List.mem_singleton.1 h]
      · cases h
    · exact (le_max_left _ _).trans (ih h)

theorem proper_gaps (hi cursor : α) (l : List (α × α)) : Proper (gaps hi cursor l) := by
  induction l generalizing cursor with
  | nil =>
    intro i hmem
    rw [gaps] at hmem
    split_ifs at hmem with h
    · rwa [List.mem_singleton.1 hmem]
    · cases hmem
  | cons j rest ih =>
    obtain ⟨a, b⟩ := j
    intro i hmem
    rw [gaps, List.mem_append] at hmem
    rcases hmem with hmem | hmem
    · split_ifs at hmem with h
      · rwa [List.mem_singleton.1 hmem]
      · cases hmem
    · exact ih _ i hmem

section Gaps

variable {hi cursor : α} {l : List (α × α)}

theorem apart_gaps (hp : Proper l) : Apart (gaps hi cursor l) := by
  induction l generalizing cursor with
  | nil =>
    rw [gaps]
    split_ifs
    · exact List.pairwise_singleton _ _
    · exact List.Pairwise.nil
  | cons j rest ih =>
    obtain ⟨a, b⟩ := j
    have hab : a < b := hp _ List.mem_cons_self
    have ih : Apart (gaps hi (max cursor b) rest) := ih fun k hk => hp k (List.mem_cons_of_mem _ hk)
    rw [gaps]
    split_ifs
    · refine List.pairwise_cons.2 ⟨fun k hk => ?_, ih⟩
      exact hab.trans_le ((le_max_right _ _).trans (le_of_mem_gaps hk))
    · exact ih

/-- The gaps contain the instants of `[cursor, hi)` that the intervals do not contain. -/
theorem covers_gaps (ha : Apart l) (hp : Proper l) (hb : ∀ i ∈ l, cursor ≤ i.1 ∧ i.2 ≤ hi) (t : α) :
    Covers (gaps hi cursor l) t ↔ Contains (cursor, hi) t ∧ ¬ Covers l t := by
  induction l generalizing cursor with
  | nil =>
    rw [gaps]
    split_ifs with h
    · simp
    · have : ¬ Contains (cursor, hi) t := fun hc => h (hc.1.trans_lt hc.2)
      simp [this]
  | cons j rest ih =>
    obtain ⟨a, b⟩ := j
    obtain ⟨hj, hrest⟩ := List.pairwise_cons.1 ha
    have hab : a < b := hp _ List.mem_cons_self
    obtain ⟨hca, hbhi⟩ := hb _ List.mem_cons_self
    have hmax : max cursor b = b := max_eq_right (hca.trans hab.le)
    have ih : Covers (gaps hi b rest) t ↔ Contains (b, hi) t ∧ ¬ Covers rest t :=
      ih hrest (fun k hk => hp k (List.mem_cons_of_mem _ hk))
        fun k hk => ⟨(hj k hk).le, (hb k (List.mem_cons_of_mem _ hk)).2⟩
    have hfirst : Covers (if cursor < a then [(cursor, a)] else []) t ↔ cursor ≤ t ∧ t < a := by
      split_ifs with h
      · simp [Contains]
      · exact ⟨fun hc => absurd hc (covers_nil t), fun hc => absurd (hc.1.trans_lt hc.2) h⟩
    rw [gaps, covers_append, hmax, ih, hfirst, covers_cons]
    simp only [Contains, not_or, not_and_or, not_le, not_lt]
    constructor
    · rintro (⟨h1, h2⟩ | ⟨⟨h1, h2⟩, h3⟩)
      · refine ⟨⟨h1, h2.trans (hab.trans_le hbhi)⟩, .inl h2, ?_⟩
        rintro ⟨k, hk, hkt⟩
        exact absurd (h2.trans (hab.trans (hj k hk))) (not_lt.2 hkt.1)
      · exact ⟨⟨hca.trans (hab.le.trans h1), h2⟩, .inr h1, h3⟩
    · rintro ⟨⟨h1, h2⟩, h3 | h3, h4⟩
      · exact .inl ⟨h1, h3⟩
      · exact .inr ⟨⟨h3, h2⟩, h4⟩

end Gaps

/-! ### Values with intervals -/

/-- The values whose interval contains `t`. -/
def slice (t : α) (l : List (β × (α × α))) : List β :=
  (l.filter fun e => Contains e.2 t).map Prod.fst

@[simp] theorem slice_nil (t : α) : slice t ([] : List (β × (α × α))) = [] := rfl

theorem slice_cons (t : α) (x : β) (i : α × α) (l : List (β × (α × α))) :
    slice t ((x, i) :: l) = if Contains i t then x :: slice t l else slice t l := by
  by_cases h : Contains i t <;> simp [slice, h]

theorem slice_append (t : α) (l l' : List (β × (α × α))) :
    slice t (l ++ l') = slice t l ++ slice t l' := by simp [slice]

theorem slice_flatMap (t : α) (l : List γ) (f : γ → List (β × (α × α))) :
    slice t (l.flatMap f) = l.flatMap fun x => slice t (f x) := by
  induction l with
  | nil => rfl
  | cons x l ih => rw [List.flatMap_cons, slice_append, ih, List.flatMap_cons]

theorem slice_map (t : α) (f : β → γ) (l : List (β × (α × α))) :
    slice t (l.map fun e => (f e.1, e.2)) = (slice t l).map f := by
  simp [slice, List.filter_map, Function.comp_def]

theorem slice_filter (t : α) (p : β → Bool) (l : List (β × (α × α))) :
    slice t (l.filter fun e => p e.1) = (slice t l).filter p := by
  simp [slice, List.filter_map, List.filter_filter, Function.comp_def, Bool.and_comm]

theorem mem_slice {t : α} {x : β} {l : List (β × (α × α))} :
    x ∈ slice t l ↔ ∃ i, (x, i) ∈ l ∧ Contains i t := by
  simp [slice]

/-- The value `x` on each interval of a list. -/
def spread (x : β) (l : List (α × α)) : List (β × (α × α)) := l.map fun i => (x, i)

theorem slice_spread (t : α) (x : β) {l : List (α × α)} (ha : Apart l) (hp : Proper l) :
    slice t (spread x l) = if Covers l t then [x] else [] := by
  have hmap : slice t (spread x l) = (l.filter (Contains · t)).map fun _ => x := by
    simp [slice, spread, List.filter_map, Function.comp_def]
  rw [hmap, List.map_const', filter_contains_of_apart ha hp]
  by_cases h : Covers l t <;> simp [h]

/-- The common part of two intervals. -/
def clip (i j : α × α) : α × α := (max i.1 j.1, min i.2 j.2)

theorem contains_clip {i j : α × α} {t : α} :
    Contains (clip i j) t ↔ Contains i t ∧ Contains j t := by
  simp only [Contains, clip, max_le_iff, lt_min_iff]
  tauto

/-- The partners that share an instant with `[i.1, i.2)`, each on the common part. -/
def matched (i : α × α) (l : List (β × (α × α))) : List (β × (α × α)) :=
  (l.map fun e => (e.1, clip i e.2)).filter fun e => e.2.1 < e.2.2

theorem slice_matched (t : α) (i : α × α) (l : List (β × (α × α))) :
    slice t (matched i l) = if Contains i t then slice t l else [] := by
  induction l with
  | nil => simp [matched]
  | cons e l ih =>
    obtain ⟨x, j⟩ := e
    rw [matched, List.map_cons, List.filter_cons, ← matched] at *
    rw [slice_cons]
    by_cases hne : (clip i j).1 < (clip i j).2
    · rw [if_pos (by simpa using hne), slice_cons, ih]
      by_cases hi : Contains i t <;> by_cases hj : Contains j t <;> simp [contains_clip, hi, hj]
    · -- an empty common part contains no instant
      have hno : ¬ (Contains i t ∧ Contains j t) := fun h =>
        hne ((contains_clip.2 h).1.trans_lt (contains_clip.2 h).2)
      rw [if_neg (by simpa using hne), ih]
      by_cases hi : Contains i t <;> by_cases hj : Contains j t <;> simp_all

/-- The parts of `[i.1, i.2)` on which there is a partner. -/
def covers (i : α × α) (l : List (β × (α × α))) : List (α × α) := (matched i l).map Prod.snd

theorem proper_covers (i : α × α) (l : List (β × (α × α))) : Proper (covers i l) := by
  intro j hj
  obtain ⟨e, he, rfl⟩ := List.mem_map.1 hj
  simpa using (List.mem_filter.1 he).2

theorem bounds_covers {i j : α × α} {l : List (β × (α × α))} (h : j ∈ covers i l) :
    i.1 ≤ j.1 ∧ j.2 ≤ i.2 := by
  obtain ⟨e, he, rfl⟩ := List.mem_map.1 h
  obtain ⟨e', -, rfl⟩ := List.mem_map.1 (List.mem_filter.1 he).1
  exact ⟨le_max_left _ _, min_le_left _ _⟩

theorem covers_covers {i : α × α} {l : List (β × (α × α))} {t : α} :
    Covers (covers i l) t ↔ Contains i t ∧ slice t l ≠ [] := by
  have h : Covers (covers i l) t ↔ slice t (matched i l) ≠ [] := by
    constructor
    · rintro ⟨j, hj, ht⟩
      obtain ⟨e, he, rfl⟩ := List.mem_map.1 hj
      exact List.ne_nil_of_mem (mem_slice.2 ⟨e.2, he, ht⟩)
    · intro hne
      obtain ⟨x, hx⟩ := List.exists_mem_of_ne_nil _ hne
      obtain ⟨j, he, ht⟩ := mem_slice.1 hx
      exact ⟨j, List.mem_map.2 ⟨_, he, rfl⟩, ht⟩
  rw [h, slice_matched]
  by_cases hi : Contains i t <;> simp [hi]

/-- A value on the parts where it has a partner: at `t` it is there iff it has one then. -/
theorem slice_spread_coalesce (t : α) (x : γ) (i : α × α) (l : List (β × (α × α))) :
    slice t (spread x (mergeCovers (covers i l))) =
      if Contains i t ∧ slice t l ≠ [] then [x] else [] := by
  rw [slice_spread t x (apart_mergeCovers _) (proper_mergeCovers (proper_covers i l))]
  simp only [covers_mergeCovers, covers_covers]

/-- A value on the parts where it has no partner. -/
theorem slice_spread_gaps (t : α) (x : γ) (i : α × α) (l : List (β × (α × α))) :
    slice t (spread x (gaps i.2 i.1 (mergeCovers (covers i l)))) =
      if Contains i t ∧ slice t l = [] then [x] else [] := by
  have hp := proper_mergeCovers (proper_covers i l)
  rw [slice_spread t x (apart_gaps hp) (proper_gaps _ _ _)]
  have hcov := covers_gaps (apart_mergeCovers (covers i l)) hp
    (fun j hj => bounds_mergeCovers (fun k hk => bounds_covers hk) hj) t
  simp only [covers_mergeCovers, covers_covers] at hcov
  by_cases hi : Contains i t <;> simp [hcov, hi]

end Intervals
