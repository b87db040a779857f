import SteleDb.Lib.Bisect
import SteleDb.Lib.Chunks
import SteleDb.Lib.LittleEndian
import SteleDb.Storage.SegmentStats

/-!
# Valid-interval summaries

The footer of a segment has, for the segment and for each row group, a short list of intervals that
contain the valid intervals of its rows: their union, of which the smallest gaps are closed until at
most `cap` intervals are left.  A scan that is pinned on the valid axis looks an instant or a window
up in the list by bisection and skips the row groups that it rules out.

* `ValidIntervalSummary.build_eq` : the builder never overflows and returns the summary of
  `buildSummary`;
* `ValidIntervalSummary.covers_iff`, `overlaps_iff` : the lookups in a list that is well formed;
* `ValidIntervalSummary.decode_encode`, `wellFormed_of_decode` : the form in the footer;
* `ValidIntervalSummary.summary_spec` : together, up to the test of a stored row's row group.
-/

namespace SteleDb

open Intervals

/-- The value is an `i128`. -/
def FitsI128 (x : ℤ) : Prop := -2 ^ 127 ≤ x ∧ x < 2 ^ 127

instance (x : ℤ) : Decidable (FitsI128 x) := inferInstanceAs (Decidable (_ ∧ _))

/-- `i128::MAX`. -/
def i128Max : ℤ := 2 ^ 127 - 1

/-- `i128` subtraction; none if it overflows. -/
def i128Sub (a b : ℤ) : Option ℤ := if FitsI128 (a - b) then some (a - b) else none

/-- The instants that some row is valid at, and perhaps more. -/
structure ValidIntervalSummary where
  /-- Intervals in order. -/
  intervals : List (ℤ × ℤ)
  deriving DecidableEq, Repr

namespace ValidIntervalSummary

/-! ### The builder -/

/-- Look at the gaps between neighbours, the first of them at position `i`, for the smallest;
`best` is the smallest so far with its position. -/
def scanGaps : ℕ → ℕ × ℤ → List (ℤ × ℤ) → Option (ℕ × ℤ)
  | i, best, a :: b :: rest => do
    let gap ← i128Sub b.1 a.2
    scanGaps (i + 1) (if gap < best.2 then (i, gap) else best) (b :: rest)
  | _, best, _ => some best

/-- Join the interval at `best` with the next one; none if there is none. -/
def joinNext (best : ℕ) (merged : List (ℤ × ℤ)) : Option (List (ℤ × ℤ)) :=
  match merged[best]?, merged[best + 1]? with
  | some a, some b => some ((merged.set best (a.1, max a.2 b.2)).eraseIdx (best + 1))
  | _, _ => none

/-- Close the smallest gap until at most `cap` intervals are left. -/
def closeGaps (cap : ℕ) : ℕ → List (ℤ × ℤ) → Option (List (ℤ × ℤ))
  | 0, merged => if merged.length ≤ cap then some merged else none
  | turns + 1, merged =>
    if merged.length ≤ cap then some merged
    else do
      let (best, _) ← scanGaps 0 (0, i128Max) merged
      let merged ← joinNext best merged
      closeGaps cap turns merged

/-- The summary of intervals, with at most `cap` of them; none if the arithmetic overflows. -/
def build (pairs : List (ℤ × ℤ)) (cap : ℕ) : Option ValidIntervalSummary :=
  let merged := mergeCovers (pairs.filter fun i => i.1 < i.2)
  (closeGaps (max cap 1) merged.length merged).map mk

/-- There is no interval. -/
def isEmpty (s : ValidIntervalSummary) : Bool := s.intervals.isEmpty

/-- Some interval contains `point`. -/
def covers (s : ValidIntervalSummary) (point : ℤ) : Bool :=
  let idx := partitionPoint (fun i => i.1 ≤ point) s.intervals
  decide (0 < idx) && s.intervals[idx - 1]?.any fun i => point < i.2

/-- Some interval overlaps `[lo, hi)`. -/
def overlaps (s : ValidIntervalSummary) (lo hi : ℤ) : Bool :=
  if hi ≤ lo then false
  else
    let idx := partitionPoint (fun i => i.1 < hi) s.intervals
    decide (0 < idx) && s.intervals[idx - 1]?.any fun i => lo < i.2

/-- Intervals of `i64`s that are not empty, in order, with a gap between neighbours. -/
structure WellFormed (s : ValidIntervalSummary) : Prop where
  apart : Apart s.intervals
  proper : Proper s.intervals
  fits : ∀ i ∈ s.intervals, FitsI64 i.1 ∧ FitsI64 i.2

/-- The stored form of an interval. -/
def encodeInterval (i : ℤ × ℤ) : Bytes := i64ToLeBytes i.1 ++ i64ToLeBytes i.2

/-- The stored form; none if the number of intervals does not fit its field. -/
def encode (s : ValidIntervalSummary) : Option Bytes :=
  if s.intervals.length < 2 ^ 32 then
    some (leBytes 4 s.intervals.length ++ s.intervals.flatMap encodeInterval)
  else none

/-- The intervals of chunks of sixteen bytes, after those of `intervals`. -/
def decodeIntervals : List (ℤ × ℤ) → List Bytes → Except String (List (ℤ × ℤ))
  | intervals, [] => .ok intervals
  | intervals, pair :: rest =>
    let lo := i64OfLeBytes (pair.take 8)
    let hi := i64OfLeBytes ((pair.drop 8).take 8)
    if hi ≤ lo then .error "empty or inverted valid interval in footer"
    else if intervals.getLast?.any fun last => lo ≤ last.2 then
      .error "valid intervals are not strictly ascending and disjoint"
    else decodeIntervals (intervals ++ [(lo, hi)]) rest

/-- Read a summary, and how many bytes it takes. -/
def decode (bytes : Bytes) : Except String (ValidIntervalSummary × ℕ) :=
  if bytes.length < 4 then .error "missing valid-interval count"
  else
    let count := leNat (bytes.take 4)
    if count = 0 then .error "zero valid-interval count"
    else
      let stop := 4 + count * 16
      if bytes.length < stop then .error "truncated valid-interval section"
      else
        match decodeIntervals [] (Chunks.exactChunks 16 ((bytes.take stop).drop 4)) with
        | .ok intervals => .ok (⟨intervals⟩, stop)
        | .error e => .error e

/-- The stored form of a row group's summary; a row group without one has the count zero. -/
def encodeEntry : Option ValidIntervalSummary → Option Bytes
  | some summary => summary.encode
  | none => some (leBytes 4 0)

/-- The stored form of the summaries of row groups. -/
def encodePerRowGroup (summaries : List (Option ValidIntervalSummary)) : Option Bytes :=
  if summaries.length < 2 ^ 32 then do
    let entries ← summaries.mapM encodeEntry
    some (leBytes 4 summaries.length ++ entries.flatten)
  else none

/-- Read `n` more entries from `cursor` on, after those of `out`. -/
def decodeEntries (bytes : Bytes) : ℕ → ℕ → List (Option ValidIntervalSummary) →
    Except String (List (Option ValidIntervalSummary) × ℕ)
  | 0, cursor, out => .ok (out, cursor)
  | n + 1, cursor, out =>
    if bytes.length < cursor then .error "truncated per-row-group valid-interval section"
    else
      let rest := bytes.drop cursor
      if rest.length < 4 then .error "missing per-row-group valid-interval entry count"
      else if leNat (rest.take 4) = 0 then decodeEntries bytes n (cursor + 4) (out ++ [none])
      else
        match decode rest with
        | .ok (summary, consumed) =>
          decodeEntries bytes n (cursor + consumed) (out ++ [some summary])
        | .error e => .error e

/-- Read the summaries of `expected` row groups, and how many bytes they take. -/
def decodePerRowGroup (bytes : Bytes) (expected : ℕ) :
    Except String (List (Option ValidIntervalSummary) × ℕ) :=
  if bytes.length < 4 then .error "missing per-row-group valid-interval count"
  else
    let count := leNat (bytes.take 4)
    if count ≠ expected then
      .error "per-row-group valid-interval count disagrees with row-group count"
    else decodeEntries bytes count 4 []

/-! ### The builder closes the smallest gap -/

/-- The gaps between neighbours. -/
def widths (l : List (ℤ × ℤ)) : List ℤ := (l.zip l.tail).map fun e => e.2.1 - e.1.2

/-- The first of the least of `seen`, with its position. -/
def FirstLeast (seen : List ℤ) (best : ℕ × ℤ) : Prop :=
  seen[best.1]? = some best.2 ∧ (∀ w ∈ seen, best.2 ≤ w) ∧
    ∀ k w, k < best.1 → seen[k]? = some w → best.2 < w

theorem FirstLeast.snoc {seen : List ℤ} {best : ℕ × ℤ} (h : FirstLeast seen best) (gap : ℤ) :
    FirstLeast (seen ++ [gap]) (if gap < best.2 then (seen.length, gap) else best) := by
  obtain ⟨hget, hle, hlt⟩ := h
  have hbound : best.1 < seen.length := (List.getElem?_eq_some_iff.1 hget).1
  split_ifs with hgap
  · refine ⟨by simp, ?_, ?_⟩
    · intro w hw
      rcases List.mem_append.1 hw with hw | hw
      · exact hgap.le.trans (hle w hw)
      · rw [List.mem_singleton.1 hw]
    · intro k w hk hw
      rw [List.getElem?_append_left hk] at hw
      exact hgap.trans_le (hle w (List.mem_of_getElem? hw))
  · refine ⟨by rwa [List.getElem?_append_left hbound], ?_, ?_⟩
    · intro w hw
      rcases List.mem_append.1 hw with hw | hw
      · exact hle w hw
      · rw [List.mem_singleton.1 hw]
        exact not_lt.1 hgap
    · intro k w hk hw
      rw [List.getElem?_append_left (hk.trans hbound)] at hw
      exact hlt k w hk hw

theorem FirstLeast.findIdx {ws : List ℤ} {best : ℕ × ℤ} (h : FirstLeast ws best) :
    ws.findIdx (fun w => ws.all fun w' => w ≤ w') = best.1 := by
  obtain ⟨hget, hle, hlt⟩ := h
  obtain ⟨hbound, hbest⟩ := List.getElem?_eq_some_iff.1 hget
  rw [List.findIdx_eq hbound, hbest]
  refine ⟨by simpa using hle, fun j hj => ?_⟩
  have hj' : ws[j]? = some (ws.get ⟨j, hj.trans hbound⟩) := List.getElem?_eq_getElem _
  refine Bool.eq_false_iff.2 fun hall => ?_
  have hmin := List.all_eq_true.1 hall best.2 (List.mem_of_getElem? hget)
  exact absurd (hlt j _ hj hj') (not_lt.2 (by simpa using hmin))

/-- The ends of intervals are `i64`s. -/
def EndsFit (l : List (ℤ × ℤ)) : Prop := ∀ i ∈ l, FitsI64 i.1 ∧ FitsI64 i.2

theorem EndsFit.tail {i : ℤ × ℤ} {l : List (ℤ × ℤ)} (h : EndsFit (i :: l)) : EndsFit l :=
  fun j hj => h j (List.mem_cons_of_mem _ hj)

/-- The gap between `i64`s is an `i128`, and not the greatest. -/
theorem i128Sub_of_fits {a b : ℤ} (ha : FitsI64 a) (hb : FitsI64 b) :
    i128Sub a b = some (a - b) ∧ a - b < i128Max := by
  simp only [FitsI64, i64Min, i64Max] at ha hb
  have hfits : FitsI128 (a - b) := ⟨by omega, by omega⟩
  refine ⟨if_pos hfits, ?_⟩
  rw [i128Max]
  omega

theorem scanGaps_spec {seen : List ℤ} {best : ℕ × ℤ} {l : List (ℤ × ℤ)} (hfit : EndsFit l)
    (h : FirstLeast seen best) :
    ∃ best', scanGaps seen.length best l = some best' ∧ FirstLeast (seen ++ widths l) best' := by
  induction l generalizing seen best with
  | nil => exact ⟨best, rfl, by simpa [widths] using h⟩
  | cons a l ih =>
    rcases l with _ | ⟨b, rest⟩
    · exact ⟨best, rfl, by simpa [widths] using h⟩
    · obtain ⟨hgap, -⟩ := i128Sub_of_fits (hfit b (by simp)).1 (hfit a (by simp)).2
      obtain ⟨best', hscan, hleast⟩ := ih hfit.tail (h.snoc (b.1 - a.2))
      rw [List.length_append, List.length_singleton] at hscan
      refine ⟨best', ?_, ?_⟩
      · rw [scanGaps, hgap]
        exact hscan
      · rwa [List.append_assoc] at hleast

/-- The scan does not overflow, and finds the smallest gap. -/
theorem scanGaps_eq {l : List (ℤ × ℤ)} (hfit : EndsFit l) (hlen : 2 ≤ l.length) :
    ∃ gap, scanGaps 0 (0, i128Max) l = some (smallestGap l, gap) ∧
      smallestGap l + 1 < l.length := by
  obtain ⟨a, b, rest, rfl⟩ : ∃ a b rest, l = a :: b :: rest := by
    rcases l with _ | ⟨a, _ | ⟨b, rest⟩⟩
    · simp at hlen
    · simp at hlen
    · exact ⟨a, b, rest, rfl⟩
  obtain ⟨hgap, hmax⟩ := i128Sub_of_fits (hfit b (by simp)).1 (hfit a (by simp)).2
  have hfirst : FirstLeast [b.1 - a.2] (0, b.1 - a.2) :=
    ⟨rfl, by simp, fun k w hk _ => absurd hk (Nat.not_lt_zero k)⟩
  obtain ⟨best, hscan, hleast⟩ := scanGaps_spec hfit.tail hfirst
  have hbest : smallestGap (a :: b :: rest) = best.1 := hleast.findIdx
  refine ⟨best.2, ?_, ?_⟩
  · rw [scanGaps, hgap, hbest]
    simp only [Option.bind_eq_bind, Option.bind_some, if_pos hmax]
    exact hscan
  · have hbound := (List.getElem?_eq_some_iff.1 hleast.1).1
    rw [hbest]
    simpa [widths] using hbound

theorem joinNext_eq {n : ℕ} {l : List (ℤ × ℤ)} (h : n + 1 < l.length) :
    joinNext n l = some (mergeAt n l) := by
  have hjoin : joinNext n l =
      some ((l.set n (l[n].1, max l[n].2 l[n + 1].2)).eraseIdx (n + 1)) := by
    rw [joinNext, List.getElem?_eq_getElem h, List.getElem?_eq_getElem (by omega)]
  rw [hjoin]
  congr 1
  clear hjoin
  induction l generalizing n with
  | nil => simp at h
  | cons i l ih =>
    cases n with
    | zero =>
      rcases l with _ | ⟨j, rest⟩
      · simp at h
      · rfl
    | succ n =>
      have hstep := ih (n := n) (by simpa using h)
      rw [mergeAt, ← hstep]
      rfl

theorem length_mergeAt {n : ℕ} {l : List (ℤ × ℤ)} (h : n + 1 < l.length) :
    (mergeAt n l).length + 1 = l.length := by
  induction l generalizing n with
  | nil => simp at h
  | cons i l ih =>
    cases n with
    | zero =>
      rcases l with _ | ⟨j, rest⟩
      · simp at h
      · rfl
    | succ n =>
      have hstep := ih (n := n) (by simpa using h)
      rw [mergeAt, List.length_cons, hstep, List.length_cons]

theorem EndsFit.mergeAt {n : ℕ} {l : List (ℤ × ℤ)} (h : EndsFit l) : EndsFit (mergeAt n l) := by
  induction l generalizing n with
  | nil => cases n <;> exact h
  | cons i l ih =>
    cases n with
    | zero =>
      rcases l with _ | ⟨j, rest⟩
      · exact h
      · intro k hk
        rcases List.mem_cons.1 hk with rfl | hk
        · refine ⟨(h i (by simp)).1, ?_⟩
          rcases max_choice i.2 j.2 with hm | hm <;> simp only [hm]
          · exact (h i (by simp)).2
          · exact (h j (by simp)).2
        · exact h k (by simp [hk])
    | succ n =>
      intro k hk
      rcases List.mem_cons.1 hk with rfl | hk
      · exact h k List.mem_cons_self
      · exact ih h.tail k hk

/-- Close the smallest gap. -/
def closeOne (l : List (ℤ × ℤ)) : List (ℤ × ℤ) := mergeAt (smallestGap l) l

/-- The loop closes as many gaps as there are intervals too many. -/
theorem closeGaps_eq {cap turns : ℕ} (hcap : 1 ≤ cap) {l : List (ℤ × ℤ)} (hfit : EndsFit l)
    (hturns : l.length ≤ cap + turns) :
    closeGaps cap turns l = some (closeOne^[l.length - cap] l) ∧
      EndsFit (closeOne^[l.length - cap] l) ∧ (closeOne^[l.length - cap] l).length ≤ cap := by
  induction turns generalizing l with
  | zero =>
    have hle : l.length ≤ cap := by omega
    rw [closeGaps, if_pos hle, Nat.sub_eq_zero_of_le hle]
    exact ⟨rfl, hfit, hle⟩
  | succ turns ih =>
    rw [closeGaps]
    split_ifs with hle
    · rw [Nat.sub_eq_zero_of_le hle]
      exact ⟨rfl, hfit, hle⟩
    · obtain ⟨gap, hscan, hbound⟩ := scanGaps_eq hfit (by omega)
      have hlen : (closeOne l).length + 1 = l.length := length_mergeAt hbound
      have hone : l.length - cap = (closeOne l).length - cap + 1 := by omega
      have hstep := ih (l := closeOne l) hfit.mergeAt (by omega)
      rw [hscan, hone, Function.iterate_succ_apply]
      simp only [Option.bind_eq_bind, Option.bind_some, joinNext_eq hbound]
      exact hstep

/-- Sorting and joining keep the ends. -/
theorem EndsFit.mergeCovers {l : List (ℤ × ℤ)} (h : EndsFit l) (hp : Proper l) :
    EndsFit (mergeCovers l) := by
  intro i hi
  have hproper : i.1 < i.2 := proper_mergeCovers hp i hi
  obtain ⟨hlo, hhi⟩ := bounds_mergeCovers (fun j hj => ⟨(h j hj).1.1, (h j hj).2.2⟩) hi
  exact ⟨⟨hlo, hproper.le.trans hhi⟩, ⟨hlo.trans hproper.le, hhi⟩⟩

/-- **The builder does not overflow.** -/
theorem build_eq {pairs : List (ℤ × ℤ)} (cap : ℕ) (hfit : EndsFit pairs) :
    build pairs cap = some ⟨buildSummary pairs cap⟩ ∧ EndsFit (buildSummary pairs cap) ∧
      (buildSummary pairs cap).length ≤ max cap 1 := by
  have hmerged : EndsFit (Intervals.mergeCovers (pairs.filter fun i => i.1 < i.2)) :=
    EndsFit.mergeCovers (fun i hi => hfit i (List.mem_of_mem_filter hi)) fun i hi => by
      simpa using (List.mem_filter.1 hi).2
  obtain ⟨hclose, hends, hlen⟩ := closeGaps_eq (le_max_right cap 1) hmerged (Nat.le_add_left _ _)
  refine ⟨?_, hends, hlen⟩
  rw [build, hclose]
  rfl

/-- Without a cap that is exceeded no gap is closed. -/
theorem buildSummary_of_le {pairs : List (ℤ × ℤ)} {cap : ℕ}
    (h : (mergeCovers (pairs.filter fun i => i.1 < i.2)).length ≤ max cap 1) (t : ℤ) :
    Covers (buildSummary pairs cap) t ↔ Covers pairs t := by
  rw [buildSummary, Nat.sub_eq_zero_of_le h, Function.iterate_zero, id, covers_mergeCovers]
  constructor
  · rintro ⟨i, hi, hc⟩
    exact ⟨i, List.mem_of_mem_filter hi, hc⟩
  · rintro ⟨i, hi, hc⟩
    exact ⟨i, List.mem_filter.2 ⟨hi, decide_eq_true (hc.1.trans_lt hc.2)⟩, hc⟩

theorem wellFormed_of_build {pairs : List (ℤ × ℤ)} {cap : ℕ} {s : ValidIntervalSummary}
    (hfit : EndsFit pairs) (h : build pairs cap = some s) : s.WellFormed := by
  obtain ⟨hbuild, hends, -⟩ := build_eq cap hfit
  obtain rfl := Option.some.inj (hbuild.symm.trans h)
  obtain ⟨ha, hp, -⟩ := buildSummary_spec pairs cap
  exact ⟨ha, hp, hends⟩

/-! ### Lookups -/

/-- Of intervals in order those that begin as `begins` allows come first. -/
theorem not_begins_of_mem_dropWhile {begins : ℤ → Bool}
    (hb : ∀ a b, a ≤ b → begins b = true → begins a = true) {l : List (ℤ × ℤ)} (ha : Apart l)
    (hp : Proper l) {i : ℤ × ℤ} (hi : i ∈ l.dropWhile fun i => begins i.1) :
      begins i.1 = false := by
  induction l with
  | nil => cases hi
  | cons j l ih =>
    obtain ⟨hj, ha⟩ := List.pairwise_cons.1 ha
    have hrest : Proper l := fun k hk => hp k (List.mem_cons_of_mem _ hk)
    by_cases hbj : begins j.1 = true
    · rw [List.dropWhile_cons, if_pos hbj] at hi
      exact ih ha hrest hi
    · rw [List.dropWhile_cons, if_neg hbj] at hi
      refine Bool.eq_false_iff.2 fun hbi => hbj ?_
      rcases List.mem_cons.1 hi with rfl | hi
      · exact hbi
      · exact hb _ _ ((hp j List.mem_cons_self).trans (hj i hi)).le hbi

/-- Bisection finds the last interval that begins as `begins` allows. -/
theorem bisect_eq_stab (begins : ℤ → Bool)
    (hb : ∀ a b, a ≤ b → begins b = true → begins a = true) {l : List (ℤ × ℤ)} (ha : Apart l)
    (hp : Proper l) (lo : ℤ) :
    (decide (0 < partitionPoint (fun i => begins i.1) l) &&
      l[partitionPoint (fun i => begins i.1) l - 1]?.any fun i => lo < i.2) = stab begins lo l := by
  have hsplit := List.takeWhile_append_dropWhile (p := fun i : ℤ × ℤ => begins i.1) (l := l)
  have hpoint : partitionPoint (fun i => begins i.1) l =
      (l.takeWhile fun i => begins i.1).length := by
    have hfound : partitionPoint (fun i : ℤ × ℤ => begins i.1)
        ((l.takeWhile fun i => begins i.1) ++ l.dropWhile fun i => begins i.1) =
        (l.takeWhile fun i => begins i.1).length := partitionPoint_eq
      (fun i hi => List.mem_takeWhile_imp (p := fun i : ℤ × ℤ => begins i.1) hi)
      fun i hi => not_begins_of_mem_dropWhile hb ha hp hi
    rwa [hsplit] at hfound
  rw [hpoint, stab, List.getLast?_eq_getElem?]
  by_cases hnil : l.takeWhile (fun i => begins i.1) = []
  · rw [hnil]
    rfl
  · have hpos := List.length_pos_iff.2 hnil
    have hget : l[(l.takeWhile fun i => begins i.1).length - 1]? =
        (l.takeWhile fun i => begins i.1)[(l.takeWhile fun i => begins i.1).length - 1]? := by
      conv_lhs => rw [← hsplit]
      rw [List.getElem?_append_left]
      · congr 1
        simp only [hsplit]
      · simp only [hsplit]
        omega
    rw [hget, decide_eq_true hpos, Bool.true_and]

/-- What a lookup finds is an interval of the list. -/
theorem exists_of_stab {begins : ℤ → Bool} {lo : ℤ} {l : List (ℤ × ℤ)}
    (h : stab begins lo l = true) : ∃ i ∈ l, begins i.1 = true ∧ lo < i.2 := by
  rw [stab, Option.any_eq_true] at h
  obtain ⟨i, hlast, hlo⟩ := h
  have hmem := List.mem_of_getLast? hlast
  exact ⟨i, (List.takeWhile_prefix _).subset hmem,
    List.mem_takeWhile_imp (p := fun i : ℤ × ℤ => begins i.1) hmem, of_decide_eq_true hlo⟩

/-- **An instant is found exactly if some interval contains it.** -/
theorem covers_iff {s : ValidIntervalSummary} (h : s.WellFormed) (point : ℤ) :
    s.covers point = true ↔ Covers s.intervals point := by
  have hb : ∀ a b : ℤ, a ≤ b → decide (b ≤ point) = true → decide (a ≤ point) = true := by
    intro a b hab hle
    exact decide_eq_true (hab.trans (of_decide_eq_true hle))
  have hstab := bisect_eq_stab (fun a => decide (a ≤ point)) hb h.apart h.proper point
  rw [covers, hstab]
  constructor
  · intro hfound
    obtain ⟨i, hi, hle, hlt⟩ := exists_of_stab hfound
    exact ⟨i, hi, of_decide_eq_true hle, hlt⟩
  · rintro ⟨i, hi, hle, hlt⟩
    exact stab_of_mem hb h.apart h.proper hi (decide_eq_true hle) hlt

/-- **A window is found exactly if some interval shares an instant with it.** -/
theorem overlaps_iff {s : ValidIntervalSummary} (h : s.WellFormed) (lo hi : ℤ) :
    s.overlaps lo hi = true ↔ ∃ i ∈ s.intervals, ∃ t, Contains i t ∧ Contains (lo, hi) t := by
  have hb : ∀ a b : ℤ, a ≤ b → decide (b < hi) = true → decide (a < hi) = true := by
    intro a b hab hlt
    exact decide_eq_true (hab.trans_lt (of_decide_eq_true hlt))
  have hstab := bisect_eq_stab (fun a => decide (a < hi)) hb h.apart h.proper lo
  rw [overlaps]
  split_ifs with hempty
  · refine ⟨fun hf => absurd hf (by decide), ?_⟩
    rintro ⟨i, -, t, -, hlo, hhi⟩
    exact absurd (hlo.trans_lt hhi) (not_lt.2 hempty)
  · rw [hstab]
    constructor
    · intro hfound
      obtain ⟨i, hmem, hlt, hlo⟩ := exists_of_stab hfound
      have hlt := of_decide_eq_true hlt
      have hproper : i.1 < i.2 := h.proper i hmem
      refine ⟨i, hmem, max lo i.1, ⟨le_max_right _ _, max_lt hlo hproper⟩, le_max_left _ _, ?_⟩
      exact max_lt (not_le.1 hempty) hlt
    · rintro ⟨i, hmem, t, hit, hlo, hhi⟩
      exact stab_of_mem hb h.apart h.proper hmem (decide_eq_true (hit.1.trans_lt hhi))
        (hlo.trans_lt hit.2)

/-! ### The form in the footer -/

@[simp] theorem length_encodeInterval (i : ℤ × ℤ) : (encodeInterval i).length = 16 := by
  simp [encodeInterval, i64ToLeBytes]

theorem length_flatMap_encodeInterval (l : List (ℤ × ℤ)) :
    (l.flatMap encodeInterval).length = l.length * 16 := by
  induction l with
  | nil => rfl
  | cons i l ih =>
    rw [List.flatMap_cons, List.length_append, length_encodeInterval, ih, List.length_cons]
    omega

/-- The chunks of stored intervals. -/
theorem exactChunks_flatMap (l : List (ℤ × ℤ)) :
    Chunks.exactChunks 16 (l.flatMap encodeInterval) = l.map encodeInterval := by
  induction l with
  | nil => exact Chunks.exactChunks_nil 16
  | cons i l ih =>
    rw [List.flatMap_cons, Chunks.exactChunks_chunk_append (by decide) (length_encodeInterval i),
      ih, List.map_cons]

/-- An interval is read back. -/
theorem decode_encodeInterval {i : ℤ × ℤ} (h : FitsI64 i.1 ∧ FitsI64 i.2) :
    i64OfLeBytes ((encodeInterval i).take 8) = i.1 ∧
      i64OfLeBytes (((encodeInterval i).drop 8).take 8) = i.2 := by
  have h8 : ∀ x : ℤ, (i64ToLeBytes x).length = 8 := fun x => length_leBytes ..
  rw [encodeInterval, List.take_left' (h8 _), List.drop_left' (h8 _),
    List.take_of_length_le (h8 _).le]
  exact ⟨i64OfLeBytes_i64ToLeBytes h.1.1 h.1.2, i64OfLeBytes_i64ToLeBytes h.2.1 h.2.2⟩

theorem decodeIntervals_encode (before : List (ℤ × ℤ)) {l : List (ℤ × ℤ)} (ha : Apart (before ++ l))
    (hp : Proper l)
    (hfit : EndsFit l) : decodeIntervals before (l.map encodeInterval) = .ok (before ++ l) := by
  induction l generalizing before with
  | nil => rw [List.map_nil, decodeIntervals, List.append_nil]
  | cons i l ih =>
    obtain ⟨hlo, hhi⟩ := decode_encodeInterval (hfit i List.mem_cons_self)
    have hproper : ¬ i.2 ≤ i.1 := not_le.2 (hp i List.mem_cons_self)
    have hlast : ¬ (before.getLast?.any fun last => decide (i.1 ≤ last.2)) = true := by
      intro hany
      obtain ⟨last, hget, hle⟩ := (Option.any_eq_true _ _).1 hany
      have hlt := (List.pairwise_append.1 ha).2.2 last (List.mem_of_getLast? hget) i
        List.mem_cons_self
      exact absurd (of_decide_eq_true hle) (not_le.2 hlt)
    rw [List.map_cons, decodeIntervals, hlo, hhi, if_neg hproper, if_neg hlast]
    rw [List.append_cons] at ha
    rw [ih _ ha (fun k hk => hp k (List.mem_cons_of_mem _ hk)) hfit.tail, ← List.append_cons]

theorem decodeIntervals_apart {before l : List (ℤ × ℤ)} {chunks : List Bytes}
    (hlen : ∀ c ∈ chunks, c.length = 16) (ha : Apart before) (hp : Proper before)
    (hfit : EndsFit before) (h : decodeIntervals before chunks = .ok l) :
    Apart l ∧ Proper l ∧ EndsFit l ∧ l.length = before.length + chunks.length := by
  induction chunks generalizing before with
  | nil =>
    rw [decodeIntervals] at h
    cases h
    exact ⟨ha, hp, hfit, rfl⟩
  | cons pair rest ih =>
    rw [decodeIntervals] at h
    split_ifs at h with hle hlast
    have h16 := hlen pair List.mem_cons_self
    have hlo : FitsI64 (i64OfLeBytes (pair.take 8)) :=
      fitsI64_i64OfLeBytes (by rw [List.length_take]; omega)
    have hhi : FitsI64 (i64OfLeBytes ((pair.drop 8).take 8)) :=
      fitsI64_i64OfLeBytes (by rw [List.length_take, List.length_drop]; omega)
    generalize i64OfLeBytes (pair.take 8) = lo at h hle hlast hlo
    generalize i64OfLeBytes ((pair.drop 8).take 8) = hi at h hle hhi
    -- the interval begins after the last one, and with that after all
    have hapart : Apart (before ++ [(lo, hi)]) := by
      refine List.pairwise_append.2 ⟨ha, List.pairwise_singleton _ _, ?_⟩
      intro i hi' j hj
      rw [List.mem_singleton.1 hj]
      rcases List.eq_nil_or_concat before with rfl | ⟨before, last, rfl⟩
      · cases hi'
      · rw [List.concat_eq_append] at ha hi' hp hlast
        rw [List.getLast?_concat, Option.any_some] at hlast
        have hlt : last.2 < lo := by simpa using hlast
        rcases List.mem_append.1 hi' with hi' | hi'
        · have hbefore := (List.pairwise_append.1 ha).2.2 i hi' last (List.mem_singleton_self _)
          exact (hbefore.trans (hp last (by simp))).trans hlt
        · rwa [List.mem_singleton.1 hi']
    have hproper : Proper (before ++ [(lo, hi)]) := by
      intro i hi'
      rcases List.mem_append.1 hi' with hi' | hi'
      · exact hp i hi'
      · rw [List.mem_singleton.1 hi']
        exact not_le.1 hle
    have hends : EndsFit (before ++ [(lo, hi)]) := by
      intro i hi'
      rcases List.mem_append.1 hi' with hi' | hi'
      · exact hfit i hi'
      · rw [List.mem_singleton.1 hi']
        exact ⟨hlo, hhi⟩
    obtain ⟨ha', hp', hfit', hlen'⟩ := ih (fun c hc => hlen c (List.mem_cons_of_mem _ hc))
      hapart hproper hends h
    refine ⟨ha', hp', hfit', ?_⟩
    rw [List.length_append, List.length_singleton] at hlen'
    rw [hlen', List.length_cons]
    omega

/-- **A summary is read back**, whatever follows it. -/
theorem decode_encode {s : ValidIntervalSummary} (h : s.WellFormed) (hne : s.intervals ≠ [])
    {bytes : Bytes} (hb : s.encode = some bytes) (rest : Bytes) :
    decode (bytes ++ rest) = .ok (s, bytes.length) := by
  rw [encode] at hb
  split_ifs at hb with hlen
  cases hb
  have h4 : (leBytes 4 s.intervals.length).length = 4 := length_leBytes 4 _
  have hcount : leNat ((leBytes 4 s.intervals.length ++ s.intervals.flatMap encodeInterval ++
      rest).take 4) = s.intervals.length := by
    rw [List.append_assoc, List.take_left' h4, leNat_leBytes (by simpa using hlen)]
  have hstop : (leBytes 4 s.intervals.length ++ s.intervals.flatMap encodeInterval).length =
      4 + s.intervals.length * 16 := by
    rw [List.length_append, h4, length_flatMap_encodeInterval]
  have hbody : ((leBytes 4 s.intervals.length ++ s.intervals.flatMap encodeInterval ++ rest).take
      (4 + s.intervals.length * 16)).drop 4 = s.intervals.flatMap encodeInterval := by
    rw [← hstop, List.take_left, List.drop_left' h4]
  have hzero : s.intervals.length ≠ 0 := mt List.length_eq_zero_iff.1 hne
  have hlong : 4 + s.intervals.length * 16 ≤
      (leBytes 4 s.intervals.length ++ s.intervals.flatMap encodeInterval ++ rest).length := by
    rw [List.length_append, hstop]
    exact Nat.le_add_right _ _
  have hread := decodeIntervals_encode [] h.apart h.proper h.fits
  rw [decode, hcount, hstop]
  dsimp only
  rw [if_neg (by omega), if_neg hzero, if_neg (not_lt.2 hlong), hbody, exactChunks_flatMap, hread]
  rfl

/-- **What is read is well formed.** -/
theorem wellFormed_of_decode {bytes : Bytes} {s : ValidIntervalSummary} {n : ℕ}
    (h : decode bytes = .ok (s, n)) : s.WellFormed ∧ s.intervals ≠ [] ∧ n ≤ bytes.length := by
  rw [decode] at h
  simp only at h
  split_ifs at h with h4 hzero hstop
  have hbody : ((bytes.take (4 + leNat (bytes.take 4) * 16)).drop 4).length =
      leNat (bytes.take 4) * 16 := by
    rw [List.length_drop, List.length_take]
    omega
  cases hdec : decodeIntervals [] (Chunks.exactChunks 16
      ((bytes.take (4 + leNat (bytes.take 4) * 16)).drop 4)) with
  | error e =>
    rw [hdec] at h
    cases h
  | ok l =>
    rw [hdec] at h
    cases h
    obtain ⟨ha, hp, hfit, hlen⟩ := decodeIntervals_apart
      (fun c hc => Chunks.length_of_mem_exactChunks (by decide) hc) List.Pairwise.nil
      (fun i hi => nomatch hi) (fun i hi => nomatch hi) hdec
    refine ⟨⟨ha, hp, hfit⟩, ?_, not_lt.1 hstop⟩
    rintro rfl
    rw [Chunks.length_exactChunks, hbody, Nat.mul_div_cancel _ (by decide)] at hlen
    simp at hlen
    exact hzero hlen.symm

/-- A summary that is written has its number of intervals in front. -/
theorem count_of_encode {s : ValidIntervalSummary} {bytes : Bytes} (h : s.encode = some bytes)
    (rest : Bytes) : 4 ≤ bytes.length ∧ leNat ((bytes ++ rest).take 4) = s.intervals.length := by
  rw [encode] at h
  split_ifs at h with hlen
  cases h
  have h4 : (leBytes 4 s.intervals.length).length = 4 := length_leBytes 4 _
  refine ⟨?_, ?_⟩
  · rw [List.length_append, h4]
    exact Nat.le_add_right _ _
  · rw [List.append_assoc, List.take_left' h4, leNat_leBytes (by simpa using hlen)]

/-- The entries are read one after another. -/
theorem decodeEntries_encode {summaries : List (Option ValidIntervalSummary)} {entries : List Bytes}
    (hmap : summaries.mapM encodeEntry = some entries)
    (hgood : ∀ s, some s ∈ summaries → s.WellFormed ∧ s.intervals ≠ []) (before rest : Bytes)
    (out : List (Option ValidIntervalSummary)) :
    decodeEntries (before ++ (entries.flatten ++ rest)) summaries.length before.length out =
      .ok (out ++ summaries, before.length + entries.flatten.length) := by
  induction summaries generalizing entries before out with
  | nil =>
    cases hmap
    rw [List.length_nil, decodeEntries, List.append_nil]
    rfl
  | cons entry summaries ih =>
    rw [List.mapM_cons] at hmap
    obtain ⟨bytes, henc, hmap⟩ := Option.bind_eq_some_iff.1 hmap
    obtain ⟨more, hmore, hmap⟩ := Option.bind_eq_some_iff.1 hmap
    cases hmap
    have hrest := ih hmore (fun s hs => hgood s (List.mem_cons_of_mem _ hs)) (before ++ bytes)
      (out ++ [entry])
    have hbytes : before ++ ((bytes :: more).flatten ++ rest) =
        before ++ bytes ++ (more.flatten ++ rest) := by
      rw [List.flatten_cons, List.append_assoc, List.append_assoc]
    have hdrop : (before ++ bytes ++ (more.flatten ++ rest)).drop before.length =
        bytes ++ (more.flatten ++ rest) := by
      rw [List.append_assoc, List.drop_left]
    have hcursor : ¬ (before ++ bytes ++ (more.flatten ++ rest)).length < before.length := by
      rw [List.append_assoc, List.length_append]
      omega
    rw [List.length_append] at hrest
    rw [hbytes, List.length_cons, decodeEntries, if_neg hcursor, hdrop]
    cases entry with
    | none =>
      obtain rfl : leBytes 4 0 = bytes := Option.some.inj henc
      have hzero : leNat ((leBytes 4 0 ++ (more.flatten ++ rest)).take 4) = 0 := by
        rw [List.take_left' (length_leBytes 4 0)]
        exact leNat_leBytes (by decide)
      dsimp only
      rw [if_neg (by rw [List.length_append, length_leBytes]; omega), if_pos hzero]
      rw [length_leBytes] at hrest
      rw [hrest, List.append_assoc, List.flatten_cons, List.length_append, length_leBytes,
        Nat.add_assoc]
      rfl
    | some s =>
      obtain ⟨hwf, hne⟩ := hgood s List.mem_cons_self
      obtain ⟨h4, hcount⟩ := count_of_encode henc (more.flatten ++ rest)
      dsimp only
      rw [if_neg (by rw [List.length_append]; omega), hcount,
        if_neg (mt List.length_eq_zero_iff.1 hne), decode_encode hwf hne henc]
      dsimp only
      rw [hrest, List.append_assoc, List.flatten_cons, List.length_append, Nat.add_assoc]
      rfl

/-- **The summaries of row groups are read back**, whatever follows them. -/
theorem decodePerRowGroup_encode {summaries : List (Option ValidIntervalSummary)} {bytes : Bytes}
    (h : encodePerRowGroup summaries = some bytes)
    (hgood : ∀ s, some s ∈ summaries → s.WellFormed ∧ s.intervals ≠ []) (rest : Bytes) :
    decodePerRowGroup (bytes ++ rest) summaries.length = .ok (summaries, bytes.length) := by
  rw [encodePerRowGroup] at h
  split_ifs at h with hlen
  obtain ⟨entries, hmap, h⟩ := Option.bind_eq_some_iff.1 h
  cases h
  have h4 : (leBytes 4 summaries.length).length = 4 := length_leBytes 4 _
  have hcount : leNat ((leBytes 4 summaries.length ++ (entries.flatten ++ rest)).take 4) =
      summaries.length := by
    rw [List.take_left' h4, leNat_leBytes (by simpa using hlen)]
  have hread := decodeEntries_encode hmap hgood (leBytes 4 summaries.length) rest []
  rw [h4, List.nil_append] at hread
  rw [List.append_assoc, decodePerRowGroup, hcount]
  dsimp only
  rw [if_neg (by rw [List.length_append, h4]; omega), if_neg (by simp), hread, List.length_append,
    h4]

end ValidIntervalSummary

/-! ### The writer -/

/-- The sections of a footer that say which instants of the valid axis a segment covers. -/
structure ValidSections where
  /-- The summary of the segment. -/
  validIntervals : Option ValidIntervalSummary
  /-- Those of its row groups, each of which may have none. -/
  rowGroupValidIntervals : Option (List (Option ValidIntervalSummary))
  deriving DecidableEq, Repr

/-- The footer as it is written: its flags, the number of row groups, and the bytes of the sections
after the bloom filter. -/
structure ValidFooter where
  /-- `FOOTER_FLAG_VALID_INTERVALS`. -/
  hasValidIntervals : Bool
  /-- `FOOTER_FLAG_RG_VALID_INTERVALS`. -/
  hasRowGroups : Bool
  /-- The row groups. -/
  rowGroupCount : ℕ
  /-- The bytes. -/
  bytes : Bytes
  deriving DecidableEq, Repr

/-- An optional section. -/
def encodeSection {α : Type*} (encode : α → Option Bytes) : Option α → Option Bytes
  | some x => encode x
  | none => some []

/-- Write the sections that are there. -/
def ValidSections.encode (s : ValidSections) (rowGroupCount : ℕ) : Option ValidFooter := do
  let segment ← encodeSection ValidIntervalSummary.encode s.validIntervals
  let rowGroups ← encodeSection ValidIntervalSummary.encodePerRowGroup s.rowGroupValidIntervals
  some ⟨s.validIntervals.isSome, s.rowGroupValidIntervals.isSome, rowGroupCount,
    segment ++ rowGroups⟩

namespace SegmentWriter

/-- The summary of intervals, if it is enabled and covers anything. -/
def validIntervalSummaryFor (cap : ℕ) (pairs : List (ℤ × ℤ)) :
    Option (Option ValidIntervalSummary) :=
  if cap = 0 ∨ pairs = [] then some none
  else (ValidIntervalSummary.build pairs cap).map fun summary =>
    if summary.isEmpty then none else some summary

/-- The summary of rows with intervals; rows of a table without the axis have none. -/
def validIntervalSummary (cap : ℕ) (pairs : Option (List (ℤ × ℤ))) :
    Option (Option ValidIntervalSummary) :=
  match pairs with
  | some pairs => validIntervalSummaryFor cap pairs
  | none => some none

/-- The summaries of row groups; `pairs` are the intervals of their rows. -/
def rowGroupSummaries (cap : ℕ) :
    List (List Version) → Option (List (ℤ × ℤ)) → Option (List (Option ValidIntervalSummary))
  | [], _ => some []
  | group :: rest, pairs => do
    let summary ← validIntervalSummary cap (pairs.map (List.take group.length))
    let more ← rowGroupSummaries cap rest (pairs.map (List.drop group.length))
    some (summary :: more)

/-- The sections: those of the row groups only beside that of the segment. -/
def validSections (w : SegmentWriter) (cap : ℕ) (pairs : Option (List (ℤ × ℤ))) :
    Option ValidSections := do
  let rowGroups ← rowGroupSummaries cap w.groups pairs
  let segment ← validIntervalSummary cap pairs
  some ⟨segment, segment.map fun _ => rowGroups⟩

/-- Seal the segment, as far as these sections go; none if the writer panics. -/
def finishValid (w : SegmentWriter) (cap : ℕ) : Except SegmentError (Option ValidFooter) := do
  let pairs ← w.validPairs
  let rowGroups ← w.encodeGroups w.groups pairs
  let _ ← w.encodeRetractions
  if 2 ^ 32 ≤ rowGroups.length then .error (.tooLarge "row-group count exceeds u32::MAX")
  else pure ((w.validSections cap pairs).bind fun s => s.encode rowGroups.length)

end SegmentWriter

/-! ### The reader -/

namespace ValidFooter

/-- Read a section that its flag announces; what is left of the bytes. -/
def decodeSection {α : Type*} (decode : Bytes → Except String (α × ℕ)) (what : String)
    (present : Bool) (bytes : Bytes) : Except SegmentError (Option α × Bytes) :=
  if present then
    match decode bytes with
    | .ok (x, consumed) => .ok (some x, bytes.drop consumed)
    | .error _ => .error (.corrupt what)
  else .ok (none, bytes)

/-- Read the sections that the flags announce. -/
def parse (f : ValidFooter) : Except SegmentError ValidSections := do
  let (validIntervals, bytes) ← decodeSection ValidIntervalSummary.decode
    "malformed valid-interval summary in footer" f.hasValidIntervals f.bytes
  let (rowGroupValidIntervals, bytes) ←
    decodeSection (fun bytes => ValidIntervalSummary.decodePerRowGroup bytes f.rowGroupCount)
      "malformed per-row-group valid-interval summaries in footer" f.hasRowGroups bytes
  if bytes ≠ [] then .error (.corrupt "trailing bytes in footer")
  else pure ⟨validIntervals, rowGroupValidIntervals⟩

end ValidFooter

namespace ValidSections

/-- Row group `g` may have a row that is valid at `point`. -/
def rowGroupMightContainValid (s : ValidSections) (g : ℕ) (point : ℤ) : Bool :=
  (s.rowGroupValidIntervals.bind (·[g]?)).all fun entry =>
    entry.all fun summary => summary.covers point

/-- Row group `g` may have a row that is valid in `[lo, hi)`. -/
def rowGroupMightOverlapValid (s : ValidSections) (g : ℕ) (lo hi : ℤ) : Bool :=
  (s.rowGroupValidIntervals.bind (·[g]?)).all fun entry =>
    entry.all fun summary => summary.overlaps lo hi

end ValidSections

/-! ### From the writer to the test -/

/-- The summary of a row group, if there is one, covers what its rows are valid at. -/
def Summarises (cap : ℕ) (rows : List Version) (entry : Option ValidIntervalSummary) : Prop :=
  ∀ s, entry = some s → s.WellFormed ∧ s.intervals ≠ [] ∧ s.intervals.length ≤ max cap 1 ∧
    ∀ v ∈ rows, ∀ i, v.validPair = some i → ∀ t, Contains i t → Covers s.intervals t

/-- A section that is written is read back. -/
theorem decodeSection_encodeSection {α : Type*} {encode : α → Option Bytes}
    (decode : Bytes → Except String (α × ℕ)) {section_ : Option α} {bytes : Bytes}
    (hread : ∀ x, section_ = some x → ∀ bytes, encode x = some bytes → ∀ rest,
      decode (bytes ++ rest) = .ok (x, bytes.length))
    (h : encodeSection encode section_ = some bytes) (what : String) (rest : Bytes) :
    ValidFooter.decodeSection decode what section_.isSome (bytes ++ rest) =
      .ok (section_, rest) := by
  cases section_ with
  | none =>
    cases h
    rfl
  | some x =>
    rw [ValidFooter.decodeSection, Option.isSome_some, if_pos rfl, hread x rfl bytes h rest]
    simp only [List.drop_left]

/-- Sections that are written are read back. -/
theorem ValidSections.parse_encode {s : ValidSections} {n : ℕ} {f : ValidFooter}
    (h : s.encode n = some f)
    (hsegment : ∀ x, s.validIntervals = some x → x.WellFormed ∧ x.intervals ≠ [])
    (hgroups : ∀ xs, s.rowGroupValidIntervals = some xs →
      xs.length = n ∧ ∀ x, some x ∈ xs → x.WellFormed ∧ x.intervals ≠ []) :
    f.parse = .ok s := by
  rw [ValidSections.encode] at h
  obtain ⟨first, hfirst, h⟩ := Option.bind_eq_some_iff.1 h
  obtain ⟨second, hsecond, h⟩ := Option.bind_eq_some_iff.1 h
  cases h
  have hread := decodeSection_encodeSection ValidIntervalSummary.decode
    (fun x hx bytes hb rest =>
      ValidIntervalSummary.decode_encode (hsegment x hx).1 (hsegment x hx).2 hb rest)
    hfirst "malformed valid-interval summary in footer" second
  have hread' := decodeSection_encodeSection
    (fun bytes => ValidIntervalSummary.decodePerRowGroup bytes n)
    (fun xs hxs bytes hb rest => by
      obtain ⟨rfl, hgood⟩ := hgroups xs hxs
      exact ValidIntervalSummary.decodePerRowGroup_encode hb hgood rest)
    hsecond "malformed per-row-group valid-interval summaries in footer" []
  rw [List.append_nil] at hread'
  simp only [ValidFooter.parse, hread, hread', bind, Except.bind]
  rfl

namespace SegmentWriter

variable {cap : ℕ} {w : SegmentWriter}

theorem summarises_of_pairs {rows : List Version} {validTime : Bool}
    {pairs : Option (List (ℤ × ℤ))} (hpairs : PairsOf validTime rows pairs) :
    ∃ entry, validIntervalSummary cap pairs = some entry ∧ Summarises cap rows entry := by
  have hnone : Summarises cap rows none := fun s hs => nomatch hs
  cases pairs with
  | none => exact ⟨none, rfl, hnone⟩
  | some pairs =>
    have hfit : ValidIntervalSummary.EndsFit pairs := fun i hi => hpairs.fits hi
    obtain ⟨hbuild, hends, hlen⟩ := ValidIntervalSummary.build_eq cap hfit
    obtain ⟨ha, hp, hcov⟩ := buildSummary_spec pairs cap
    rw [validIntervalSummary, validIntervalSummaryFor]
    split_ifs with hoff
    · exact ⟨none, rfl, hnone⟩
    · rw [hbuild]
      by_cases hempty : buildSummary pairs cap = []
      · refine ⟨none, ?_, hnone⟩
        simp [ValidIntervalSummary.isEmpty, hempty]
      · refine ⟨some ⟨buildSummary pairs cap⟩, ?_, ?_⟩
        · simp [ValidIntervalSummary.isEmpty, hempty]
        intro s hs
        obtain rfl := Option.some.inj hs
        refine ⟨⟨ha, hp, hends⟩, hempty, hlen, fun v hv i hi t ht => ?_⟩
        have htrue : validTime = true := by simpa using hpairs.isSome.symm
        subst htrue
        exact hcov t ⟨i, hpairs.mem hv hi, ht⟩

/-- One summary for each row group, in their order. -/
theorem rowGroupSummaries_spec {groups : List (List Version)} {validTime : Bool}
    {pairs : Option (List (ℤ × ℤ))} (hpairs : PairsOf validTime groups.flatten pairs) :
    ∃ entries, rowGroupSummaries cap groups pairs = some entries ∧
      List.Forall₂ (Summarises cap) groups entries := by
  induction groups generalizing pairs with
  | nil => exact ⟨[], rfl, .nil⟩
  | cons group rest ih =>
    rw [List.flatten_cons] at hpairs
    obtain ⟨entry, hentry, hsum⟩ := summarises_of_pairs hpairs.take
    obtain ⟨entries, hentries, hall⟩ := ih hpairs.drop
    refine ⟨entry :: entries, ?_, .cons hsum hall⟩
    rw [rowGroupSummaries, hentry, hentries]
    rfl

theorem length_encodeGroups {groups : List (List Version)} {pairs : Option (List (ℤ × ℤ))}
    {entries : List (List FooterEntry)} (h : w.encodeGroups groups pairs = .ok entries) :
    entries.length = groups.length := by
  induction groups generalizing pairs entries with
  | nil =>
    cases h
    rfl
  | cons group rest ih =>
    rw [encodeGroups] at h
    cases hg : w.encodeGroup group (pairs.map (List.take group.length)) with
    | error e => rw [hg] at h; cases h
    | ok es =>
      cases hr : w.encodeGroups rest (pairs.map (List.drop group.length)) with
      | error e => rw [hg, hr] at h; cases h
      | ok ess =>
        rw [hg, hr] at h
        cases h
        rw [List.length_cons, List.length_cons, ih hr]

/-- What the writer computed when it sealed a segment. -/
theorem finishValid_eq_ok {r : Option ValidFooter} (h : w.finishValid cap = .ok r) :
    ∃ segment entries, Summarises cap w.rows segment ∧
      List.Forall₂ (Summarises cap) w.groups entries ∧ w.groups.length < 2 ^ 32 ∧
      r = ValidSections.encode ⟨segment, segment.map fun _ => entries⟩ w.groups.length := by
  rw [finishValid] at h
  cases hp : w.validPairs with
  | error e => rw [hp] at h; cases h
  | ok pairs =>
    cases hg : w.encodeGroups w.groups pairs with
    | error e => rw [hp] at h; simp only [bind, Except.bind, hg] at h; cases h
    | ok rowGroups =>
      cases ht : w.encodeRetractions with
      | error e => rw [hp] at h; simp only [bind, Except.bind, hg, ht] at h; cases h
      | ok retractions =>
        rw [hp] at h
        simp only [bind, Except.bind, hg, ht] at h
        have hlen := length_encodeGroups hg
        split_ifs at h with hcount
        have hpairs := pairsOf_validPairs hp
        obtain ⟨segment, hsegment, hsum⟩ := @summarises_of_pairs cap _ _ _ hpairs
        rw [← flatten_groups w] at hpairs
        obtain ⟨entries, hentries, hall⟩ := @rowGroupSummaries_spec cap _ _ _ hpairs
        refine ⟨segment, entries, hsum, hall, by rw [← hlen]; exact not_le.1 hcount, ?_⟩
        have hsections : w.validSections cap pairs =
            some ⟨segment, segment.map fun _ => entries⟩ := by
          rw [validSections, hentries, hsegment]
          rfl
        rw [hsections, hlen] at h
        cases h
        rfl

/-- A summary with few intervals is written. -/
theorem isSome_encode {rows : List Version} {s : ValidIntervalSummary}
    (h : Summarises cap rows (some s)) (hcap : cap < 2 ^ 32) : s.encode.isSome = true := by
  obtain ⟨-, -, hlen, -⟩ := h s rfl
  have hfew : s.intervals.length < 2 ^ 32 := by
    have hmax : max cap 1 < 2 ^ 32 := max_lt hcap (by decide)
    omega
  rw [ValidIntervalSummary.encode, if_pos hfew]
  rfl

theorem isSome_mapM_encodeEntry {groups : List (List Version)}
    {entries : List (Option ValidIntervalSummary)}
    (h : List.Forall₂ (Summarises cap) groups entries) (hcap : cap < 2 ^ 32) :
    (entries.mapM ValidIntervalSummary.encodeEntry).isSome = true := by
  induction h with
  | nil => rfl
  | @cons group entry groups entries hsum _ ih =>
    have hentry : (ValidIntervalSummary.encodeEntry entry).isSome = true := by
      cases entry with
      | none => rfl
      | some s => exact isSome_encode hsum hcap
    obtain ⟨bytes, hb⟩ := Option.isSome_iff_exists.1 hentry
    obtain ⟨more, hm⟩ := Option.isSome_iff_exists.1 ih
    rw [List.mapM_cons, hb, hm]
    rfl

/-- With a cap that fits the count's field the writer does not panic. -/
theorem isSome_of_finishValid {r : Option ValidFooter} (h : w.finishValid cap = .ok r)
    (hcap : cap < 2 ^ 32) : r.isSome = true := by
  obtain ⟨segment, entries, hsum, hall, hcount, rfl⟩ := finishValid_eq_ok h
  have hentries := isSome_mapM_encodeEntry hall hcap
  obtain ⟨bytes, hb⟩ := Option.isSome_iff_exists.1 hentries
  rw [hall.length_eq] at hcount
  have hgroups : ValidIntervalSummary.encodePerRowGroup entries =
      some (leBytes 4 entries.length ++ bytes.flatten) := by
    rw [ValidIntervalSummary.encodePerRowGroup, if_pos hcount, hb]
    rfl
  cases segment with
  | none => rfl
  | some s =>
    obtain ⟨first, hfirst⟩ := Option.isSome_iff_exists.1 (isSome_encode hsum hcap)
    simp [ValidSections.encode, encodeSection, hfirst, hgroups]

/-- **A stored row keeps its row group from being skipped.** -/
theorem rowGroup_of_finishValid {f : ValidFooter} (h : w.finishValid cap = .ok (some f)) :
    ∃ s, f.parse = .ok s ∧ ∀ g group v i, w.groups[g]? = some group → v ∈ group →
      v.validPair = some i →
      (∀ point, Contains i point → s.rowGroupMightContainValid g point = true) ∧
      ∀ lo hi, (∃ t, Contains i t ∧ Contains (lo, hi) t) →
        s.rowGroupMightOverlapValid g lo hi = true := by
  obtain ⟨segment, entries, hsum, hall, -, hf⟩ := finishValid_eq_ok h
  have hgood : ∀ x, some x ∈ entries → x.WellFormed ∧ x.intervals ≠ [] := by
    intro x hx
    obtain ⟨g, hg⟩ := List.getElem?_of_mem hx
    have hlt : g < w.groups.length := by
      rw [hall.length_eq]
      exact (List.getElem?_eq_some_iff.1 hg).1
    obtain ⟨hlt', hget⟩ := List.getElem?_eq_some_iff.1 hg
    obtain ⟨hwf, hne, -⟩ := hall.get hlt hlt' x hget
    exact ⟨hwf, hne⟩
  refine ⟨_, ValidSections.parse_encode hf.symm (fun x hx => ?_) (fun xs hxs => ?_),
    fun g group v i hg hv hi => ?_⟩
  · obtain ⟨hwf, hne, -⟩ := hsum x hx
    exact ⟨hwf, hne⟩
  · obtain ⟨x, -, rfl⟩ := Option.map_eq_some_iff.1 hxs
    exact ⟨hall.length_eq.symm, hgood⟩
  · -- the entry of the row group, if the segment has any
    have hentry : ∀ x, (segment.map fun _ => entries).bind (·[g]?) = some (some x) →
        x.WellFormed ∧ ∀ t, Contains i t → Covers x.intervals t := by
      intro x hx
      obtain ⟨xs, hxs, hget⟩ := Option.bind_eq_some_iff.1 hx
      obtain ⟨-, -, rfl⟩ := Option.map_eq_some_iff.1 hxs
      obtain ⟨hlt, hgroup⟩ := List.getElem?_eq_some_iff.1 hg
      obtain ⟨hlt', hx⟩ := List.getElem?_eq_some_iff.1 hget
      obtain ⟨hwf, -, -, hcov⟩ := hall.get hlt hlt' x hx
      refine ⟨hwf, fun t ht => hcov v ?_ i hi t ht⟩
      rwa [← hgroup] at hv
    refine ⟨fun point hpoint => ?_, fun lo hi' hw => ?_⟩
    · refine Option.all_eq_true _ _ |>.2 fun entry he => Option.all_eq_true _ _ |>.2 fun x hx => ?_
      subst hx
      obtain ⟨hwf, hcov⟩ := hentry x he
      exact (ValidIntervalSummary.covers_iff hwf point).2 (hcov point hpoint)
    · refine Option.all_eq_true _ _ |>.2 fun entry he => Option.all_eq_true _ _ |>.2 fun x hx => ?_
      subst hx
      obtain ⟨hwf, hcov⟩ := hentry x he
      obtain ⟨t, hit, hwt⟩ := hw
      obtain ⟨j, hj, hjt⟩ := hcov t hit
      exact (ValidIntervalSummary.overlaps_iff hwf lo hi').2 ⟨j, hj, t, hjt, hwt⟩

end SegmentWriter

/-- The summary, its builder, lookups and stored form, and the test of a row group. -/
theorem ValidIntervalSummary.summary_spec :
    (∀ (pairs : List (ℤ × ℤ)) (cap : ℕ), EndsFit pairs →
      ∃ s, build pairs cap = some s ∧ s.intervals.length ≤ max cap 1 ∧ s.WellFormed ∧
        (∀ t, Covers pairs t → Covers s.intervals t) ∧
        ((mergeCovers (pairs.filter fun i => i.1 < i.2)).length ≤ max cap 1 →
          ∀ t, Covers s.intervals t ↔ Covers pairs t)) ∧
    (∀ s : ValidIntervalSummary, s.WellFormed →
      (∀ point, s.covers point = true ↔ Covers s.intervals point) ∧
      ∀ lo hi, s.overlaps lo hi = true ↔
        ∃ i ∈ s.intervals, ∃ t, Contains i t ∧ Contains (lo, hi) t) ∧
    (∀ s : ValidIntervalSummary, s.WellFormed → s.intervals ≠ [] → s.intervals.length < 2 ^ 32 →
      ∃ bytes, s.encode = some bytes ∧ ∀ rest, decode (bytes ++ rest) = .ok (s, bytes.length)) ∧
    (∀ bytes s n, decode bytes = .ok (s, n) → s.WellFormed ∧ s.intervals ≠ []) ∧
    ∀ (w : SegmentWriter) (cap : ℕ) (r : Option ValidFooter), w.finishValid cap = .ok r →
      (cap < 2 ^ 32 → r.isSome = true) ∧
      ∀ f, r = some f → ∃ s, f.parse = .ok s ∧
        ∀ g group v i, w.groups[g]? = some group → v ∈ group → v.validPair = some i →
          (∀ point, Contains i point → s.rowGroupMightContainValid g point = true) ∧
          ∀ lo hi, (∃ t, Contains i t ∧ Contains (lo, hi) t) →
            s.rowGroupMightOverlapValid g lo hi = true := by
  refine ⟨fun pairs cap hfit => ?_, fun s hs => ⟨covers_iff hs, overlaps_iff hs⟩,
    fun s hs hne hlen => ?_, fun bytes s n h => ?_, fun w cap r h => ⟨?_, ?_⟩⟩
  · obtain ⟨hbuild, -, hlen⟩ := build_eq cap hfit
    exact ⟨_, hbuild, hlen, wellFormed_of_build hfit hbuild, (buildSummary_spec pairs cap).2.2,
      buildSummary_of_le⟩
  · have henc : s.encode =
        some (leBytes 4 s.intervals.length ++ s.intervals.flatMap encodeInterval) := if_pos hlen
    exact ⟨_, henc, decode_encode hs hne henc⟩
  · obtain ⟨hwf, hne, -⟩ := wellFormed_of_decode h
    exact ⟨hwf, hne⟩
  · exact SegmentWriter.isSome_of_finishValid h
  · rintro f rfl
    exact SegmentWriter.rowGroup_of_finishValid h

/-- Two intervals that touch, and one behind a gap. -/
def gapPairs : List (ℤ × ℤ) := [(20, 21), (0, 5), (5, 8)]

theorem ValidIntervalSummary.summary_spec_gap :
    ∃ s, build gapPairs 1 = some s ∧ s.intervals.length ≤ max 1 1 ∧ s.WellFormed ∧
      (∀ t, Covers gapPairs t → Covers s.intervals t) ∧
      ((mergeCovers (gapPairs.filter fun i => i.1 < i.2)).length ≤ max 1 1 →
        ∀ t, Covers s.intervals t ↔ Covers gapPairs t) :=
  summary_spec.1 gapPairs 1 (by decide : ∀ i ∈ gapPairs, FitsI64 i.1 ∧ FitsI64 i.2)

/-- The summary of no intervals has a stored form that is refused. -/
theorem ValidIntervalSummary.empty_not_read :
    build [] 4 = some ⟨[]⟩ ∧ (ValidIntervalSummary.mk []).WellFormed ∧
      (ValidIntervalSummary.mk []).encode = some [0, 0, 0, 0] ∧
      decode [0, 0, 0, 0] = .error "zero valid-interval count" := by
  refine ⟨by decide +kernel, ⟨List.Pairwise.nil, ?_, ?_⟩, by decide, by decide⟩
  · intro i hi
    cases hi
  · intro i hi
    cases hi

end SteleDb
