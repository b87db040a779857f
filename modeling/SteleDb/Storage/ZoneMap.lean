import SteleDb.Lib.Intervals
import SteleDb.Storage.Engine
import SteleDb.Storage.RedoCodec

/-!
# What the footer of a segment says

A sealed segment is read row group by row group.  Its footer says, for the segment and for each
row group, between which bounds the instants of its rows lie (the zone map) and which instants of
the valid-time axis its rows cover (the valid-interval summary, widened until it has at most `cap`
intervals).  A scan skips what the footer rules out.

The lemmas say that the tests never rule out a row that is wanted: `mightContain_of_mem`,
`covers_of_mem`, `overlaps_of_mem`, and `sysUpperBound_superseded` for the bound that the validity
index gives.  The statistics of byte columns are left out: the scans modelled here push down no
predicate on them.
-/

namespace SteleDb

open Intervals

/-! ### Open segments -/

/-- The interval in front of a stored payload. -/
def Version.validPair (v : Version) : Option (ValidTimeMicros × ValidTimeMicros) :=
  v.payload.bind fun stored => (ValidInterval.decodePrefix stored).toOption

/-- An interval that is read back is not empty and fits its columns. -/
theorem Version.validPair_fits {v : Version} {i : ℤ × ℤ} (h : v.validPair = some i) :
    FitsI64 i.1 ∧ FitsI64 i.2 ∧ i.1 < i.2 := by
  obtain ⟨stored, -, h⟩ := Option.bind_eq_some_iff.1 h
  simp only [ValidInterval.decodePrefix] at h
  split_ifs at h with hlen hle
  · cases h
  · cases h
  · cases h
    have hlen : 16 ≤ stored.length := not_lt.1 hlen
    refine ⟨fitsI64_i64OfLeBytes ?_, fitsI64_i64OfLeBytes ?_, not_le.1 hle⟩
    · rw [List.length_take]
      omega
    · rw [List.length_take, List.length_drop]
      omega

/-- A sealed segment opened for reading. -/
structure SegmentReader where
  /-- The segment has columns for the valid-time interval of each row. -/
  validTime : Bool
  /-- The rows of each row group. -/
  rowGroups : List (List Version)
  deriving DecidableEq, Repr

namespace SegmentReader

/-- All rows. -/
def rows (r : SegmentReader) : List Version := r.rowGroups.flatten

/-- The intervals of rows, if the segment has them. -/
def pairs (r : SegmentReader) (rows : List Version) : List (ValidTimeMicros × ValidTimeMicros) :=
  if r.validTime then rows.filterMap Version.validPair else []

end SegmentReader

/-- Open a segment.  The columns of the valid-time interval are written from the payloads, so a
payload without one keeps the segment from being written. -/
def Segment.open (s : Segment) (validTime : Bool) (groupRows : ℕ) : Option SegmentReader :=
  if validTime ∧ ∃ v ∈ s.versions, v.validPair = none then none
  else some ⟨validTime, rowGroupsOf groupRows s.versions⟩

/-! ### Zone maps -/

/-- The columns with statistics that a scan asks about. -/
inductive ZoneColumn where
  | sysFrom
  | validFrom
  | validTo
  deriving DecidableEq, Repr

/-- The values of a column. -/
def SegmentReader.column (r : SegmentReader) (rows : List Version) : ZoneColumn → List ℤ
  | .sysFrom => rows.map Version.sysFrom
  | .validFrom => (r.pairs rows).map Prod.fst
  | .validTo => (r.pairs rows).map Prod.snd

/-- The least and the greatest value of each column, for a column that has values. -/
def ZoneMap := ZoneColumn → Option (ℤ × ℤ)

/-- The statistics of rows. -/
def SegmentReader.zoneMap (r : SegmentReader) (rows : List Version) : ZoneMap := fun c =>
  match (r.column rows c).min?, (r.column rows c).max? with
  | some lo, some hi => some (lo, hi)
  | _, _ => none

/-- `low ≤ column ≤ high`. -/
structure RangePredicate where
  /-- The column. -/
  column : ZoneColumn
  /-- Least value. -/
  low : ℤ
  /-- Greatest value. -/
  high : ℤ
  deriving DecidableEq, Repr

/-- A conjunction of ranges; the empty one holds of every row. -/
abbrev Predicate := List RangePredicate

namespace ZoneMap

/-- Some row may have begun by the snapshot. -/
def snapshotOverlaps (z : ZoneMap) (snapshot : SystemTimeMicros) : Bool :=
  (z .sysFrom).all fun b => b.1 ≤ snapshot

/-- Some row may satisfy the predicate. -/
def satisfies (z : ZoneMap) (p : Predicate) : Bool :=
  p.all fun c => (z c.column).all fun b => !decide (c.high < b.1) && !decide (b.2 < c.low)

/-- Some row visible at the snapshot may satisfy the predicate. -/
def mightContain (z : ZoneMap) (p : Predicate) (snapshot : SystemTimeMicros) : Bool :=
  z.snapshotOverlaps snapshot && z.satisfies p

end ZoneMap

/-- A row of which the column has a value. -/
theorem SegmentReader.bounds_zoneMap {r : SegmentReader} {rows : List Version} {c : ZoneColumn}
    {x lo hi : ℤ} (hx : x ∈ r.column rows c) (h : r.zoneMap rows c = some (lo, hi)) :
    lo ≤ x ∧ x ≤ hi := by
  rw [SegmentReader.zoneMap] at h
  cases hmin : (r.column rows c).min? with
  | none => rw [hmin] at h; cases h
  | some a =>
    cases hmax : (r.column rows c).max? with
    | none => rw [hmin, hmax] at h; cases h
    | some b =>
      rw [hmin, hmax] at h
      cases h
      exact ⟨(List.min?_eq_some_iff.1 hmin).2 x hx, (List.max?_eq_some_iff.1 hmax).2 x hx⟩

/-- **The zone map never rules out a row that is wanted.** -/
theorem SegmentReader.mightContain_of_mem {r : SegmentReader} {rows : List Version} {p : Predicate}
    {snapshot : SystemTimeMicros} {v : Version} (hv : v ∈ rows) (hs : v.sysFrom ≤ snapshot)
    (hp : ∀ c ∈ p, ∃ x ∈ r.column rows c.column, c.low ≤ x ∧ x ≤ c.high) :
    (r.zoneMap rows).mightContain p snapshot = true := by
  rw [ZoneMap.mightContain, Bool.and_eq_true]
  constructor
  · cases hz : r.zoneMap rows .sysFrom with
    | none => simp [ZoneMap.snapshotOverlaps, hz]
    | some b =>
      have hb := bounds_zoneMap (List.mem_map_of_mem hv : v.sysFrom ∈ r.column rows .sysFrom) hz
      simpa [ZoneMap.snapshotOverlaps, hz] using hb.1.trans hs
  · rw [ZoneMap.satisfies, List.all_eq_true]
    intro c hc
    obtain ⟨x, hx, hlow, hhigh⟩ := hp c hc
    cases hz : r.zoneMap rows c.column with
    | none => rfl
    | some b =>
      obtain ⟨h1, h2⟩ := bounds_zoneMap hx hz
      simp only [Option.all_some, Bool.and_eq_true, Bool.not_eq_true', decide_eq_false_iff_not,
        not_lt]
      exact ⟨h1.trans hhigh, hlow.trans h2⟩

/-! ### Valid-interval summaries -/

/-- Join the intervals at the positions `n` and `n + 1`. -/
def mergeAt : ℕ → List (ℤ × ℤ) → List (ℤ × ℤ)
  | 0, i :: j :: rest => (i.1, max i.2 j.2) :: rest
  | n + 1, i :: rest => i :: mergeAt n rest
  | _, l => l

/-- The position of the smallest gap between neighbours, the first of several. -/
def smallestGap (l : List (ℤ × ℤ)) : ℕ :=
  let widths := (l.zip l.tail).map fun e => e.2.1 - e.1.2
  widths.findIdx fun w => widths.all fun w' => w ≤ w'

/-- The summary of intervals: their union, its smallest gaps closed until `cap` intervals are
left. -/
def buildSummary (pairs : List (ℤ × ℤ)) (cap : ℕ) : List (ℤ × ℤ) :=
  let merged := mergeCovers (pairs.filter fun i => i.1 < i.2)
  (fun l => mergeAt (smallestGap l) l)^[merged.length - max cap 1] merged

section MergeAt

variable {n : ℕ} {l : List (ℤ × ℤ)}

theorem covers_mergeAt (ha : Apart l) (hp : Proper l) {t : ℤ} (h : Covers l t) :
    Covers (mergeAt n l) t := by
  induction l generalizing n with
  | nil => exact absurd h (covers_nil t)
  | cons i l ih =>
    obtain ⟨hi, ha⟩ := List.pairwise_cons.1 ha
    have hrest : Proper l := fun k hk => hp k (List.mem_cons_of_mem _ hk)
    cases n with
    | succ n =>
      rw [mergeAt, covers_cons]
      exact (covers_cons.1 h).imp id (ih ha hrest)
    | zero =>
      cases l with
      | nil => exact h
      | cons j rest =>
        rw [mergeAt, covers_cons]
        rcases covers_cons.1 h with hc | hc
        · exact .inl ⟨hc.1, lt_max_of_lt_left hc.2⟩
        · rcases covers_cons.1 hc with hc | hc
          · have hij : i.1 < j.1 := (hp i List.mem_cons_self).trans (hi j List.mem_cons_self)
            exact .inl ⟨hij.le.trans hc.1, lt_max_of_lt_right hc.2⟩
          · exact .inr hc

theorem start_le_of_mem_mergeAt {lo : ℤ} (h : ∀ i ∈ l, lo < i.1) {i : ℤ × ℤ}
    (hi : i ∈ mergeAt n l) : lo < i.1 := by
  induction l generalizing n with
  | nil => cases n <;> cases hi
  | cons j l ih =>
    have hrest : ∀ i ∈ l, lo < i.1 := fun i hi => h i (List.mem_cons_of_mem _ hi)
    cases n with
    | succ n =>
      rcases List.mem_cons.1 hi with rfl | hi
      · exact h _ List.mem_cons_self
      · exact ih hrest hi
    | zero =>
      cases l with
      | nil => exact h i hi
      | cons k rest =>
        rcases List.mem_cons.1 hi with rfl | hi
        · exact h j List.mem_cons_self
        · exact hrest i (List.mem_cons_of_mem _ hi)

theorem proper_mergeAt (hp : Proper l) : Proper (mergeAt n l) := by
  induction l generalizing n with
  | nil => cases n <;> exact hp
  | cons i l ih =>
    have hrest : Proper l := fun k hk => hp k (List.mem_cons_of_mem _ hk)
    cases n with
    | succ n =>
      intro k hk
      rcases List.mem_cons.1 hk with rfl | hk
      · exact hp _ List.mem_cons_self
      · exact ih hrest k hk
    | zero =>
      cases l with
      | nil => exact hp
      | cons j rest =>
        intro k hk
        rcases List.mem_cons.1 hk with rfl | hk
        · exact lt_max_of_lt_left (hp i List.mem_cons_self)
        · exact hrest k (List.mem_cons_of_mem _ hk)

theorem apart_mergeAt (ha : Apart l) (hp : Proper l) : Apart (mergeAt n l) := by
  induction l generalizing n with
  | nil => cases n <;> exact ha
  | cons i l ih =>
    obtain ⟨hi, ha⟩ := List.pairwise_cons.1 ha
    have hrest : Proper l := fun k hk => hp k (List.mem_cons_of_mem _ hk)
    cases n with
    | succ n =>
      exact List.pairwise_cons.2 ⟨fun k hk => start_le_of_mem_mergeAt hi hk, ih ha hrest⟩
    | zero =>
      cases l with
      | nil => exact List.pairwise_singleton _ _
      | cons j rest =>
        obtain ⟨hj, ha⟩ := List.pairwise_cons.1 ha
        refine List.pairwise_cons.2 ⟨fun k hk => max_lt ?_ (hj k hk), ha⟩
        exact hi k (List.mem_cons_of_mem _ hk)

end MergeAt

/-- A summary covers what the intervals cover; its own are apart and not empty. -/
theorem buildSummary_spec (pairs : List (ℤ × ℤ)) (cap : ℕ) :
    Apart (buildSummary pairs cap) ∧ Proper (buildSummary pairs cap) ∧
      ∀ t, Covers pairs t → Covers (buildSummary pairs cap) t := by
  have hproper : Proper (pairs.filter fun i => i.1 < i.2) := fun i hi => by
    simpa using (List.mem_filter.1 hi).2
  have hiter : ∀ (m : ℕ) (l : List (ℤ × ℤ)), Apart l → Proper l →
      Apart ((fun l => mergeAt (smallestGap l) l)^[m] l) ∧
        Proper ((fun l => mergeAt (smallestGap l) l)^[m] l) ∧
        ∀ t, Covers l t → Covers ((fun l => mergeAt (smallestGap l) l)^[m] l) t := by
    intro m
    induction m with
    | zero => exact fun l ha hp => ⟨ha, hp, fun t h => h⟩
    | succ m ih =>
      intro l ha hp
      obtain ⟨h1, h2, h3⟩ := ih _ (apart_mergeAt ha hp) (proper_mergeAt hp)
      exact ⟨h1, h2, fun t ht => h3 t (covers_mergeAt ha hp ht)⟩
  obtain ⟨h1, h2, h3⟩ := hiter ((mergeCovers (pairs.filter fun i => i.1 < i.2)).length - max cap 1)
    (mergeCovers (pairs.filter fun i => i.1 < i.2)) (apart_mergeCovers _)
    (proper_mergeCovers hproper)
  refine ⟨h1, h2, fun t ht => h3 t ?_⟩
  obtain ⟨i, hi, hc⟩ := ht
  rw [covers_mergeCovers]
  exact ⟨i, List.mem_filter.2 ⟨hi, by simpa using hc.1.trans_lt hc.2⟩, hc⟩

/-- Ask a summary: of the intervals that begin as `begins` allows, the last one reaches past
`lo`. -/
def stab (begins : ℤ → Bool) (lo : ℤ) (l : List (ℤ × ℤ)) : Bool :=
  (l.takeWhile fun i => begins i.1).getLast?.any fun i => lo < i.2

/-- Some interval contains `point`. -/
def summaryCovers (l : List (ℤ × ℤ)) (point : ℤ) : Bool := stab (· ≤ point) point l

/-- Some interval shares an instant with `[lo, hi)`. -/
def summaryOverlaps (l : List (ℤ × ℤ)) (lo hi : ℤ) : Bool :=
  if hi ≤ lo then false else stab (· < hi) lo l

theorem stab_of_mem {begins : ℤ → Bool} (hb : ∀ a b, a ≤ b → begins b = true → begins a = true)
    {lo : ℤ} {l : List (ℤ × ℤ)} (ha : Apart l) (hp : Proper l) {i : ℤ × ℤ} (hi : i ∈ l)
    (h1 : begins i.1 = true) (h2 : lo < i.2) : stab begins lo l = true := by
  induction l with
  | nil => cases hi
  | cons j l ih =>
    obtain ⟨hj, ha⟩ := List.pairwise_cons.1 ha
    have hrest : Proper l := fun k hk => hp k (List.mem_cons_of_mem _ hk)
    have hjp : j.1 < j.2 := hp j List.mem_cons_self
    -- the first interval begins no later than `i`
    have hbj : begins j.1 = true := by
      rcases List.mem_cons.1 hi with rfl | hi
      · exact h1
      · exact hb _ _ (hjp.trans (hj i hi)).le h1
    rw [stab, List.takeWhile_cons, if_pos hbj]
    cases hlast : (l.takeWhile fun i => begins i.1).getLast? with
    | none =>
      rw [List.getLast?_eq_none_iff] at hlast
      rcases List.mem_cons.1 hi with rfl | hi
      · simpa [hlast] using h2
      · -- then `i` would have been taken
        have := ih ha hrest hi
        rw [stab, hlast] at this
        cases this
    | some k =>
      have hk : k ∈ l := (List.takeWhile_prefix _).subset (List.mem_of_getLast? hlast)
      rw [List.getLast?_cons, hlast, Option.getD_some, Option.any_some, decide_eq_true_eq]
      rcases List.mem_cons.1 hi with rfl | hi
      · exact h2.trans ((hj k hk).trans (hrest k hk))
      · have := ih ha hrest hi
        rw [stab, hlast] at this
        simpa using this

/-- The number of intervals a summary keeps. -/
def defaultValidIntervalCap : ℕ := 256

/-- The summary of intervals, if there is anything to summarise. -/
def summaryFor (pairs : List (ℤ × ℤ)) : Option (List (ℤ × ℤ)) :=
  let summary := buildSummary pairs defaultValidIntervalCap
  if pairs = [] ∨ summary = [] then none else some summary

theorem mem_summaryFor {pairs summary : List (ℤ × ℤ)} (h : summaryFor pairs = some summary) :
    Apart summary ∧ Proper summary ∧ ∀ t, Covers pairs t → Covers summary t := by
  have hspec := buildSummary_spec pairs defaultValidIntervalCap
  simp only [summaryFor, Option.ite_none_left_eq_some, Option.some.injEq] at h
  rwa [h.2] at hspec

/-- **A summary never rules out an interval that contains the point**, -/
theorem covers_of_mem {pairs summary : List (ℤ × ℤ)} (h : summaryFor pairs = some summary)
    {i : ℤ × ℤ} (hi : i ∈ pairs) {point : ℤ} (hc : Contains i point) :
    summaryCovers summary point = true := by
  obtain ⟨ha, hp, hcov⟩ := mem_summaryFor h
  obtain ⟨j, hj, hjc⟩ := hcov point ⟨i, hi, hc⟩
  refine stab_of_mem (fun a b hab hb => ?_) ha hp hj (by simpa using hjc.1) hjc.2
  simp only [decide_eq_true_eq] at hb ⊢
  exact hab.trans hb

/-- nor one that shares an instant with the window. -/
theorem overlaps_of_mem {pairs summary : List (ℤ × ℤ)} (h : summaryFor pairs = some summary)
    {i : ℤ × ℤ} (hi : i ∈ pairs) {lo hi' point : ℤ} (hc : Contains i point)
    (hw : Contains (lo, hi') point) : summaryOverlaps summary lo hi' = true := by
  obtain ⟨ha, hp, hcov⟩ := mem_summaryFor h
  obtain ⟨j, hj, hjc⟩ := hcov point ⟨i, hi, hc⟩
  rw [summaryOverlaps, if_neg (not_le.2 (hw.1.trans_lt hw.2))]
  refine stab_of_mem (fun a b hab hb => ?_) ha hp hj (by simpa using hjc.1.trans_lt hw.2)
    (hw.1.trans_lt hjc.2)
  simp only [decide_eq_true_eq] at hb ⊢
  exact hab.trans_lt hb

namespace SegmentReader

/-- The summary of the segment. -/
def validIntervals (r : SegmentReader) : Option (List (ℤ × ℤ)) := summaryFor (r.pairs r.rows)

/-- The summary of a row group; the footer has one only beside that of the segment. -/
def groupValidIntervals (r : SegmentReader) (group : List Version) : Option (List (ℤ × ℤ)) :=
  r.validIntervals.bind fun _ => summaryFor (r.pairs group)

/-- Some row of the segment may be valid at `point`. -/
def mightContainValid (r : SegmentReader) (point : ℤ) : Bool :=
  r.validIntervals.all (summaryCovers · point)

/-- Some row of the segment may be valid in `[lo, hi)`. -/
def mightOverlapValid (r : SegmentReader) (lo hi : ℤ) : Bool :=
  r.validIntervals.all (summaryOverlaps · lo hi)

/-- Some row of the row group may be valid at `point`. -/
def groupMightContainValid (r : SegmentReader) (group : List Version) (point : ℤ) : Bool :=
  (r.groupValidIntervals group).all (summaryCovers · point)

/-- Some row of the row group may be valid in `[lo, hi)`. -/
def groupMightOverlapValid (r : SegmentReader) (group : List Version) (lo hi : ℤ) : Bool :=
  (r.groupValidIntervals group).all (summaryOverlaps · lo hi)

section Sound

variable {r : SegmentReader} {group : List Version} {i : ℤ × ℤ} {lo hi point : ℤ}

theorem mightContainValid_of_mem (hg : i ∈ r.pairs r.rows) (hc : Contains i point) :
    r.mightContainValid point = true := by
  rw [mightContainValid]
  cases hs : r.validIntervals with
  | none => rfl
  | some summary => exact covers_of_mem hs hg hc

theorem mightOverlapValid_of_mem (hg : i ∈ r.pairs r.rows) (hc : Contains i point)
    (hw : Contains (lo, hi) point) : r.mightOverlapValid lo hi = true := by
  rw [mightOverlapValid]
  cases hs : r.validIntervals with
  | none => rfl
  | some summary => exact overlaps_of_mem hs hg hc hw

theorem groupMightContainValid_of_mem (hg : i ∈ r.pairs group) (hc : Contains i point) :
    r.groupMightContainValid group point = true := by
  rw [groupMightContainValid]
  cases hs : r.groupValidIntervals group with
  | none => rfl
  | some summary =>
    obtain ⟨-, -, hs⟩ := Option.bind_eq_some_iff.1 hs
    exact covers_of_mem hs hg hc

theorem groupMightOverlapValid_of_mem (hg : i ∈ r.pairs group) (hc : Contains i point)
    (hw : Contains (lo, hi) point) : r.groupMightOverlapValid group lo hi = true := by
  rw [groupMightOverlapValid]
  cases hs : r.groupValidIntervals group with
  | none => rfl
  | some summary =>
    obtain ⟨-, -, hs⟩ := Option.bind_eq_some_iff.1 hs
    exact overlaps_of_mem hs hg hc hw

end Sound

end SegmentReader

/-! ### The bound of the validity index -/

/-- A bound at or before the snapshot: every version has ended by then. -/
theorem ValidityIndex.sysUpperBound_superseded {ix : ValidityIndex} {ids : List VersionId}
    {s : SystemTimeMicros} (h : (ix.sysUpperBound ids).supersededAtOrBefore s = true)
    {i : VersionId} (hi : i ∈ ids) : ∃ ci, ix.closeOf i = some ci ∧ ci.sysTo ≤ s := by
  suffices hgen : ∀ (ids : List VersionId) (sofar : SystemTimeMicros),
      (ix.sysUpperBoundFrom sofar ids).supersededAtOrBefore s = true →
        sofar ≤ s ∧ ∀ i ∈ ids, ∃ ci, ix.closeOf i = some ci ∧ ci.sysTo ≤ s from
    (hgen ids i64Min h).2 i hi
  intro ids
  induction ids with
  | nil =>
    intro sofar h
    exact ⟨by simpa [sysUpperBoundFrom, SysUpperBound.supersededAtOrBefore] using h,
      fun i hi => nomatch hi⟩
  | cons j ids ih =>
    intro sofar h
    rw [sysUpperBoundFrom] at h
    cases hc : ix.closeOf j with
    | none => rw [hc] at h; cases h
    | some ci =>
      rw [hc] at h
      obtain ⟨hmax, hrest⟩ := ih _ h
      refine ⟨(le_max_left _ _).trans hmax, fun i hi => ?_⟩
      rcases List.mem_cons.1 hi with rfl | hi
      · exact ⟨ci, hc, (le_max_right _ _).trans hmax⟩
      · exact hrest i hi

end SteleDb
