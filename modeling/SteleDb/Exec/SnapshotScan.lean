import SteleDb.Lib.ExceptMap
import SteleDb.Exec.Scalar
import SteleDb.Session.RowCodec
import SteleDb.Storage.RedoCodec
import SteleDb.Storage.SegmentStats
import SteleDb.Storage.Writes
import SteleDb.Storage.ZoneMap

/-!
# Scanning a table

A scan reads the rows of a table over both tiers.  The delta tier is read in full; a sealed segment
is skipped, whole or row group by row group, where its footer or the validity index rules it out.
The identities that are left are folded into chains with their ends, and the versions that the scan
asks for are picked from them:

* a point scan picks per key the version live at the snapshot, of these the ones valid at the valid
  snapshot if there is one (`resolveRows`);
* a system range picks every version whose period meets the range (`executeRange`);
* a valid range picks the versions live at the snapshot whose interval meets it
  (`executeValidRange`).

The source reads the columns of a sealed row late, at the place that its identity names; here a row
carries them along.  The payload of a table with a valid-time axis has the interval in front, which
a read takes off.  Counters of what was skipped are left out.

* `resolveRows_spec` : a point scan finds the versions whose period contains the snapshot;
* `executeRange_spec`, `executeValidRange_spec` : the rows of a range scan whose period contains an
  instant of the range are the rows of the point scan there.
-/

namespace SteleDb

open Timeline

/-! ### Ranges -/

/-- A range of instants on one of the axes: `[lo, hi)`, or `[lo, hi]` if the upper end is closed. -/
structure TimeRange where
  /-- First instant. -/
  lo : ℤ
  /-- The upper end. -/
  hi : ℤ
  /-- The upper end belongs to the range. -/
  closedUpper : Bool
  deriving DecidableEq, Repr

namespace TimeRange

/-- The instant `t` lies in the range. -/
def Includes (r : TimeRange) (t : ℤ) : Prop :=
  r.lo ≤ t ∧ if r.closedUpper then t ≤ r.hi else t < r.hi

instance (r : TimeRange) (t : ℤ) : Decidable (r.Includes t) := by
  unfold Includes; infer_instance

/-- The period `[vf, vt)` is not empty, reaches into the range and begins within it. -/
def overlaps (r : TimeRange) (vf vt : ℤ) : Bool :=
  vf < vt && r.lo < vt && if r.closedUpper then vf ≤ r.hi else vf < r.hi

/-- What begins after this instant cannot meet the range. -/
def beginsAfterBound (r : TimeRange) : ℤ :=
  if r.closedUpper then r.hi else max (r.hi - 1) i64Min

/-- A half-open window around the range. -/
def pruneProbe (r : TimeRange) : ℤ × ℤ :=
  (r.lo, if r.closedUpper then min (r.hi + 1) i64Max else r.hi)

theorem overlaps_of_contains {r : TimeRange} {vf vt t : ℤ} (ht : r.Includes t)
    (hc : Intervals.Contains (vf, vt) t) : r.overlaps vf vt = true := by
  obtain ⟨h1, h2⟩ := ht
  obtain ⟨h3, h4⟩ := hc
  simp only [overlaps, Bool.and_eq_true, decide_eq_true_eq]
  simp only at h3 h4
  refine ⟨⟨by omega, by omega⟩, ?_⟩
  cases hcl : r.closedUpper with
  | true =>
    rw [hcl] at h2
    simp only [if_true] at h2 ⊢
    simpa using h3.trans h2
  | false =>
    rw [hcl] at h2
    simp only [Bool.false_eq_true, if_false] at h2 ⊢
    simpa using h3.trans_lt h2

theorem le_beginsAfterBound {r : TimeRange} {vf t : ℤ} (ht : r.Includes t) (h : vf ≤ t) :
    vf ≤ r.beginsAfterBound := by
  obtain ⟨-, h2⟩ := ht
  rw [beginsAfterBound]
  cases hcl : r.closedUpper with
  | true =>
    rw [hcl] at h2
    simp only [if_true] at h2 ⊢
    exact h.trans h2
  | false =>
    rw [hcl] at h2
    simp only [Bool.false_eq_true, if_false] at h2 ⊢
    exact le_max_of_le_left (by omega)

theorem contains_pruneProbe {r : TimeRange} {t : ℤ} (ht : r.Includes t) (hmax : t < i64Max) :
    Intervals.Contains r.pruneProbe t := by
  obtain ⟨h1, h2⟩ := ht
  refine ⟨h1, ?_⟩
  rw [pruneProbe]
  cases hcl : r.closedUpper with
  | true =>
    rw [hcl] at h2
    simp only [if_true] at h2 ⊢
    exact lt_min (by omega) hmax
  | false =>
    rw [hcl] at h2
    simpa using h2

end TimeRange

/-! ### Reading a row -/

/-- Errors of a scan. -/
inductive ScanError where
  /-- A segment cannot be read. -/
  | segment
  /-- A payload has no interval in front. -/
  | validTime (e : ValidTimeError)
  /-- A payload does not match the columns. -/
  | rowCodec (e : RowCodecError)
  /-- An expression cannot be evaluated. -/
  | eval (e : ExprError)
  /-- A batch has not the column. -/
  | missingColumn (id : ColumnId)
  deriving DecidableEq, Repr

/-- The version with its own payload, and the interval that stood in front of it. -/
def stripFrame (v : Version) : Except ScanError (Version × (ValidTimeMicros × ValidTimeMicros)) :=
  match ValidInterval.decodePrefix (v.payload.getD []) with
  | .ok interval =>
    .ok ({ v with payload := v.payload.map (List.drop validTimePrefixLen) }, interval)
  | .error e => .error (.validTime e)

/-- Per key the entry whose version has the greatest position. -/
def unionByKey {β : Type*} (f : β → Version) (l : List β) : KeyedMap fun e => (f e).businessKey :=
  l.foldl
    (fun byKey e => match byKey.find? (f e).businessKey with
      | some existing => if (f e).pos ≤ (f existing).pos then byKey else byKey.insert e
      | none => byKey.insert e) KeyedMap.empty

/-- Every version of the chains whose period meets the range. -/
def resolveChainRange (chains : KeyChains) (range : TimeRange) : List Version :=
  chains.toList.flatMap fun e => e.2.values.filter fun v => range.overlaps v.sysFrom v.sysTo

/-! ### The scan -/

/-- A scan of a table: its tiers, the point it is pinned to, and what it may skip. -/
structure SnapshotScan where
  /-- The delta tier. -/
  delta : Delta
  /-- The ends of periods. -/
  index : ValidityIndex
  /-- The sealed segments. -/
  segments : List SegmentReader
  /-- The system snapshot. -/
  snapshot : SystemTimeMicros
  /-- The valid snapshot. -/
  validSnapshot : Option ValidTimeMicros := none
  /-- The table has a valid-time axis. -/
  validTime : Bool := false
  /-- Only rows valid in this window are wanted. -/
  validOverlap : Option (ValidTimeMicros × ValidTimeMicros) := none

namespace SnapshotScan

/-- Pin the valid axis. -/
def validAsOf (scan : SnapshotScan) (point : ValidTimeMicros) : SnapshotScan :=
  { scan with validSnapshot := some point, validTime := true }

/-- Ask for a valid range. -/
def validRange (scan : SnapshotScan) (range : TimeRange) : SnapshotScan :=
  { scan with validTime := true, validOverlap := some range.pruneProbe }

/-- What the zone maps are asked. -/
def pruningPredicate (scan : SnapshotScan) : Predicate :=
  match scan.validSnapshot with
  | none => []
  | some v => [⟨.validFrom, i64Min, v⟩, ⟨.validTo, min (v + 1) i64Max, i64Max⟩]

/-- A row group that the footer does not rule out. -/
def keepsGroup (scan : SnapshotScan) (beginsAfter : SystemTimeMicros) (r : SegmentReader)
    (group : List Version) : Bool :=
  (r.zoneMap group).mightContain scan.pruningPredicate beginsAfter &&
    scan.validSnapshot.all (r.groupMightContainValid group) &&
    scan.validOverlap.all fun w => r.groupMightOverlapValid group w.1 w.2

/-- The rows of a segment that are read: those of the row groups that are not ruled out, unless
the segment is ruled out or every one of them has ended. -/
def pruneSegment (scan : SnapshotScan) (beginsAfter endsBefore : SystemTimeMicros)
    (r : SegmentReader) : List Version :=
  if !(r.zoneMap r.rows).mightContain scan.pruningPredicate beginsAfter then []
  else if !scan.validSnapshot.all r.mightContainValid then []
  else if !scan.validOverlap.all fun w => r.mightOverlapValid w.1 w.2 then []
  else
    let candidates := r.rowGroups.filter (scan.keepsGroup beginsAfter r)
    if candidates.isEmpty then []
    else if (scan.index.sysUpperBound (candidates.flatten.map Version.id)).supersededAtOrBefore
        endsBefore then []
    else candidates.flatten

/-- The sealed rows that are read. -/
def pruneSegments (scan : SnapshotScan) (beginsAfter endsBefore : SystemTimeMicros) :
    List Version :=
  scan.segments.flatMap (scan.pruneSegment beginsAfter endsBefore)

/-- The rows of one tier, without the interval in front. -/
def stripRows (scan : SnapshotScan) (live : List Version) : Except ScanError (List Version) :=
  if scan.validTime then (live.mapM stripFrame).map (List.map Prod.fst) else .ok live

/-- The rows of one tier valid at the valid snapshot if there is one, without the interval in
front. -/
def validRows (scan : SnapshotScan) (live : List Version) : Except ScanError (List Version) :=
  match scan.validSnapshot with
  | some point => (live.mapM stripFrame).map fun rows =>
      (rows.filter fun e => Intervals.Contains e.2 point).map Prod.fst
  | none => scan.stripRows live

/-- The delta rows live at the snapshot. -/
def deltaLive (scan : SnapshotScan) : List Version :=
  resolveSnapshot (foldChains (scan.delta.mem.iter ++ scan.delta.spillRows) scan.index)
    scan.snapshot

/-- The sealed rows live at the snapshot, of those that are read. -/
def sealedLive (scan : SnapshotScan) : List Version :=
  resolveSnapshot (foldChains (scan.pruneSegments scan.snapshot scan.snapshot) scan.index)
    scan.snapshot

/-- A point scan. -/
def resolveRows (scan : SnapshotScan) : Except ScanError (List Version) := do
  let delta ← scan.validRows scan.deltaLive
  let sealedRows ← scan.validRows scan.sealedLive
  .ok (unionByKey id (sealedRows ++ delta)).values

/-- The delta rows whose period meets the range. -/
def deltaInRange (scan : SnapshotScan) (range : TimeRange) : List Version :=
  resolveChainRange (foldChains scan.delta.stagedVersions scan.index) range

/-- The sealed rows whose period meets the range, of those that are read. -/
def sealedInRange (scan : SnapshotScan) (range : TimeRange) : List Version :=
  resolveChainRange (foldChains (scan.pruneSegments range.beginsAfterBound range.lo) scan.index)
    range

/-- A scan of a system range; a delta row replaces the sealed row of its identity. -/
def executeRange (scan : SnapshotScan) (range : TimeRange) : Except ScanError (List Version) := do
  let delta ← scan.stripRows (scan.deltaInRange range)
  let sealedRows ← scan.stripRows (scan.sealedInRange range)
  .ok ((KeyedMap.ofList sealedRows : KeyedMap Version.id).insertAll delta).values

/-- A scan of a valid range, with the interval of each row. -/
def executeValidRange (scan : SnapshotScan) (range : TimeRange) :
    Except ScanError (List (Version × (ValidTimeMicros × ValidTimeMicros))) := do
  let scan := scan.validRange range
  let delta ← scan.deltaLive.mapM stripFrame
  let sealedRows ← scan.sealedLive.mapM stripFrame
  let meets := List.filter fun e : Version × (ValidTimeMicros × ValidTimeMicros) =>
    range.overlaps e.2.1 e.2.2
  .ok (unionByKey Prod.fst (meets sealedRows ++ meets delta)).values

end SnapshotScan

/-! ### The rows of a list of versions -/

section Lists

variable {P : Version → Prop} {ix : ValidityIndex} {H : History} {T : List Version}

theorem mem_resolveChainRange (hT : ∀ a ∈ T, ∀ b ∈ T, a.id = b.id → a = b) (hw : ix.WriteOnce)
    {range : TimeRange} {v : Version} :
    v ∈ resolveChainRange (foldChains T ix) range ↔
      (∃ raw ∈ T, raw.stamp (ix.closeOf raw.id) = v) ∧ range.overlaps v.sysFrom v.sysTo = true := by
  rw [resolveChainRange, List.mem_flatMap]
  constructor
  · rintro ⟨⟨key, chain⟩, he, hv⟩
    obtain ⟨hv, ho⟩ := List.mem_filter.1 hv
    obtain ⟨raw, hraw, -, h⟩ :=
      (mem_of_getElem?_foldChains hT hw (OrdMap.mem_toList.1 he) v).1 (KeyedMap.mem_values.1 hv)
    exact ⟨⟨raw, hraw, h⟩, ho⟩
  · rintro ⟨⟨raw, hraw, rfl⟩, ho⟩
    obtain ⟨chain, hchain⟩ := exists_chain hraw ix
    refine ⟨(raw.businessKey, chain), OrdMap.mem_toList.2 hchain, List.mem_filter.2 ⟨?_, ho⟩⟩
    exact KeyedMap.mem_values.2
      ((mem_of_getElem?_foldChains hT hw hchain _).2 ⟨raw, hraw, rfl, rfl⟩)

/-- The versions of a list whose period meets a range. -/
theorem mem_inRange (hR : Represents P ix.closeOf H) (hH : H.WellFormed) (hw : ix.WriteOnce)
    (hT : ∀ v ∈ T, P v) {range : TimeRange} {v : Version} :
    v ∈ resolveChainRange (foldChains T ix) range ↔
      HeldIn H T v ∧ range.overlaps v.sysFrom v.sysTo = true := by
  rw [mem_resolveChainRange (fun a ha b hb => hR.consistent hH (hT a ha) (hT b hb)) hw,
    exists_stamp_iff hR hT]

end Lists

/-- Entries of which a key has at most one are all kept. -/
theorem mem_unionByKey {β : Type*} {f : β → Version} {l : List β}
    (hl : ∀ a ∈ l, ∀ b ∈ l, (f a).businessKey = (f b).businessKey → a = b) {e : β} :
    e ∈ unionByKey f l ↔ e ∈ l := by
  suffices h : ∀ (l : List β) (m : KeyedMap fun e => (f e).businessKey),
      (∀ a, a ∈ m ∨ a ∈ l → ∀ b, b ∈ m ∨ b ∈ l → (f a).businessKey = (f b).businessKey → a = b) →
      (e ∈ l.foldl (fun byKey e => match byKey.find? (f e).businessKey with
        | some existing => if (f e).pos ≤ (f existing).pos then byKey else byKey.insert e
        | none => byKey.insert e) m ↔ e ∈ m ∨ e ∈ l) by
    rw [unionByKey, h l KeyedMap.empty fun a ha b hb => hl a (ha.resolve_left (by simp)) b
      (hb.resolve_left (by simp))]
    simp
  intro l
  induction l with
  | nil => intro m _; simp
  | cons a l ih =>
    intro m huniq
    rw [List.foldl_cons]
    cases hfind : m.find? (f a).businessKey with
    | some existing =>
      -- the entry that is there is `a` itself
      obtain ⟨hmem, hkey⟩ := KeyedMap.find?_eq_some.1 hfind
      obtain rfl : existing = a := huniq existing (.inl hmem) a (.inr List.mem_cons_self) hkey
      simp only [le_refl, if_true]
      rw [ih m fun x hx y hy => huniq x (hx.imp_right (List.mem_cons_of_mem _)) y
        (hy.imp_right (List.mem_cons_of_mem _)), List.mem_cons]
      constructor
      · exact fun h => h.imp_right .inr
      · rintro (h | rfl | h)
        · exact .inl h
        · exact .inl hmem
        · exact .inr h
    | none =>
      have hfresh := KeyedMap.find?_eq_none.1 hfind
      have hins : ∀ x, x ∈ m.insert a ↔ x = a ∨ x ∈ m := by
        intro x
        rw [KeyedMap.mem_insert]
        exact or_congr_right ⟨fun h => h.1, fun h => ⟨h, hfresh x h⟩⟩
      have hall : ∀ x, x ∈ m.insert a ∨ x ∈ l → x ∈ m ∨ x ∈ a :: l := by
        intro x hx
        rw [hins] at hx
        rcases hx with (rfl | hx) | hx
        · exact .inr List.mem_cons_self
        · exact .inl hx
        · exact .inr (List.mem_cons_of_mem _ hx)
      simp only
      rw [ih (m.insert a) fun x hx y hy => huniq x (hall x hx) y (hall y hy), hins, List.mem_cons]
      tauto

/-! ### Taking the interval off -/

theorem stripFrame_eq_ok {v x : Version} {i : ℤ × ℤ} : stripFrame v = .ok (x, i) ↔
    v.validPair = some i ∧
      x = { v with payload := v.payload.map (List.drop validTimePrefixLen) } := by
  rw [stripFrame, Version.validPair]
  cases hp : v.payload with
  | none => simp [ValidInterval.decodePrefix, validTimePrefixLen]
  | some stored =>
    cases hd : ValidInterval.decodePrefix stored with
    | error e => simp [hd, Except.toOption]
    | ok j => simp [hd, Except.toOption, and_comm, eq_comm]

/-- A row as the reader gets it: of a table with a valid-time axis without the interval, which
contains the pin if there is one. -/
def Opens (validTime : Bool) (pin : Option ValidTimeMicros) (v x : Version) : Prop :=
  if validTime then ∃ i, stripFrame v = .ok (x, i) ∧ ∀ p ∈ pin, Intervals.Contains i p
  else x = v

namespace Opens

variable {validTime : Bool} {pin : Option ValidTimeMicros} {v w x : Version}

/-- A row keeps all of its version but the payload. -/
theorem eq (h : Opens validTime pin v x) : ∃ payload, x = { v with payload } := by
  rw [Opens] at h
  split_ifs at h with hv
  · obtain ⟨i, h, -⟩ := h
    exact ⟨_, (stripFrame_eq_ok.1 h).2⟩
  · exact ⟨v.payload, h⟩

theorem businessKey (h : Opens validTime pin v x) : x.businessKey = v.businessKey := by
  obtain ⟨payload, rfl⟩ := h.eq
  rfl

theorem id (h : Opens validTime pin v x) : x.id = v.id := by
  obtain ⟨payload, rfl⟩ := h.eq
  rfl

theorem sysPeriod (h : Opens validTime pin v x) : x.sysPeriod = v.sysPeriod := by
  obtain ⟨payload, rfl⟩ := h.eq
  rfl

theorem unique (h : Opens validTime pin v x) (h' : Opens validTime pin v w) : x = w := by
  rw [Opens] at h h'
  split_ifs at h h' with hv
  · obtain ⟨i, h, -⟩ := h
    obtain ⟨j, h', -⟩ := h'
    rw [(stripFrame_eq_ok.1 h).2, (stripFrame_eq_ok.1 h').2]
  · rw [h, h']

end Opens

namespace SnapshotScan

variable {scan : SnapshotScan} {H : History}

/-- The row can be read. -/
def Readable (scan : SnapshotScan) (v : Version) : Prop :=
  scan.validTime = true → ∃ e, stripFrame v = .ok e

/-- All sealed rows. -/
def sealedRows (scan : SnapshotScan) : List Version := scan.segments.flatMap SegmentReader.rows

/-- The tiers that are scanned store the histories `H`. -/
structure Reads (scan : SnapshotScan) (H : History) : Prop where
  wellFormed : H.WellFormed
  represents : Represents (fun v => scan.delta.Holds v ∨ v ∈ scan.sealedRows) scan.index.closeOf H
  writeOnce : scan.index.WriteOnce
  framed : scan.validTime = true →
    ∀ r ∈ scan.segments, r.validTime = true ∧ ∀ v ∈ r.rows, ∃ i, v.validPair = some i

theorem stripRows_eq_ok {live rows : List Version} (h : scan.stripRows live = .ok rows) :
    (∀ v ∈ live, scan.Readable v) ∧ ∀ x, x ∈ rows ↔ ∃ v ∈ live, Opens scan.validTime none v x := by
  rw [stripRows] at h
  split_ifs at h with hv
  · cases hm : live.mapM stripFrame with
    | error e => rw [hm] at h; cases h
    | ok out =>
      rw [hm] at h
      cases h
      refine ⟨fun v hvl _ => (mapM_eq_ok.1 hm).1 v hvl, fun x => ?_⟩
      simp only [Opens, hv, if_true, List.mem_map, mem_of_mapM_ok hm]
      constructor
      · rintro ⟨⟨y, i⟩, ⟨v, hvl, he⟩, rfl⟩
        exact ⟨v, hvl, i, he, fun p hp => nomatch hp⟩
      · rintro ⟨v, hvl, i, he, -⟩
        exact ⟨(x, i), ⟨v, hvl, he⟩, rfl⟩
  · cases h
    refine ⟨fun v _ hvt => absurd hvt hv, fun x => ?_⟩
    simp [Opens, hv]

theorem stripRows_of_readable {live : List Version} (h : ∀ v ∈ live, scan.Readable v) :
    ∃ rows, scan.stripRows live = .ok rows := by
  by_cases hv : scan.validTime = true
  · have hm := (mapM_eq_ok (f := stripFrame)).2 ⟨fun v hvl => h v hvl hv, rfl⟩
    exact ⟨_, by rw [stripRows, if_pos hv, hm]; rfl⟩
  · exact ⟨live, by rw [stripRows, if_neg hv]⟩

/-- The rows of readable versions. -/
theorem validRows_of_readable (hpin : scan.validSnapshot.isSome = true → scan.validTime = true)
    (live : List Version) (h : ∀ v ∈ live, scan.Readable v) :
    ∃ rows, scan.validRows live = .ok rows ∧
      ∀ x, x ∈ rows ↔ ∃ v ∈ live, Opens scan.validTime scan.validSnapshot v x := by
  cases hp : scan.validSnapshot with
  | none =>
    obtain ⟨rows, hok⟩ := stripRows_of_readable h
    refine ⟨rows, by rw [validRows, hp]; exact hok, (stripRows_eq_ok hok).2⟩
  | some point =>
    have hv : scan.validTime = true := hpin (by rw [hp]; rfl)
    have hm := (mapM_eq_ok (f := stripFrame)).2 ⟨fun v hvl => h v hvl hv, rfl⟩
    refine ⟨_, by rw [validRows, hp]; simp only [hm]; rfl, fun x => ?_⟩
    simp only [Opens, hv, if_true, List.mem_map, List.mem_filter, mem_of_mapM_ok hm,
      decide_eq_true_eq, Option.mem_def, Option.some.injEq, forall_eq']
    constructor
    · rintro ⟨⟨y, i⟩, ⟨⟨v, hvl, he⟩, hc⟩, rfl⟩
      exact ⟨v, hvl, i, he, hc⟩
    · rintro ⟨v, hvl, i, he, hc⟩
      exact ⟨(x, i), ⟨⟨v, hvl, he⟩, hc⟩, rfl⟩

/-! ### What is skipped -/

theorem mem_sealedRows_of_mem_pruneSegments {a b : SystemTimeMicros} {v : Version}
    (h : v ∈ scan.pruneSegments a b) : v ∈ scan.sealedRows := by
  obtain ⟨r, hr, hv⟩ := List.mem_flatMap.1 h
  refine List.mem_flatMap.2 ⟨r, hr, ?_⟩
  rw [pruneSegment] at hv
  simp only at hv
  split_ifs at hv with h1 h2 h3 h4 h5
  · cases hv
  · cases hv
  · cases hv
  · cases hv
  · cases hv
  · obtain ⟨g, hg, hv⟩ := List.mem_flatten.1 hv
    exact List.mem_flatten.2 ⟨g, (List.mem_filter.1 hg).1, hv⟩

/-- **No row that is wanted is skipped**: one that has begun and has not ended, is valid at the
pin and in the window. -/
theorem mem_pruneSegments {begins ends : SystemTimeMicros} {r : SegmentReader}
    (hr : r ∈ scan.segments) {v : Version} (hv : v ∈ r.rows) (hs : v.sysFrom ≤ begins)
    (hopen : ∀ ci, scan.index.closeOf v.id = some ci → ends < ci.sysTo)
    (hpin : ∀ p ∈ scan.validSnapshot, r.validTime = true ∧
      ∃ i, v.validPair = some i ∧ Intervals.Contains i p)
    (hwin : ∀ w ∈ scan.validOverlap, r.validTime = true ∧
      ∃ i t, v.validPair = some i ∧ Intervals.Contains i t ∧ Intervals.Contains w t) :
    v ∈ scan.pruneSegments begins ends := by
  obtain ⟨g, hg, hvg⟩ := List.mem_flatten.1 hv
  have hpair : ∀ {i}, r.validTime = true → v.validPair = some i → ∀ {rows}, v ∈ rows →
      i ∈ r.pairs rows := by
    intro i hrt hi rows hmem
    rw [SegmentReader.pairs, if_pos hrt]
    exact List.mem_filterMap.2 ⟨v, hmem, hi⟩
  -- the footer keeps every part of the segment that holds the row
  have hzone : ∀ rows, v ∈ rows →
      (r.zoneMap rows).mightContain scan.pruningPredicate begins = true := by
    intro rows hmem
    refine SegmentReader.mightContain_of_mem hmem hs fun c hc => ?_
    cases hp : scan.validSnapshot with
    | none => rw [pruningPredicate, hp] at hc; cases hc
    | some p =>
      obtain ⟨hrt, i, hi, hip⟩ := hpin p hp
      obtain ⟨⟨hlo, -⟩, ⟨-, hhi⟩, -⟩ := Version.validPair_fits hi
      have hmem := hpair hrt hi hmem
      rw [pruningPredicate, hp] at hc
      simp only [List.mem_cons, List.not_mem_nil, or_false] at hc
      rcases hc with rfl | rfl
      · exact ⟨i.1, List.mem_map_of_mem hmem, hlo, hip.1⟩
      · exact ⟨i.2, List.mem_map_of_mem hmem, min_le_of_left_le hip.2, hhi⟩
  have hpoint : scan.validSnapshot.all r.mightContainValid = true ∧
      scan.validSnapshot.all (r.groupMightContainValid g) = true := by
    cases hp : scan.validSnapshot with
    | none => exact ⟨rfl, rfl⟩
    | some p =>
      obtain ⟨hrt, i, hi, hip⟩ := hpin p hp
      exact ⟨SegmentReader.mightContainValid_of_mem (hpair hrt hi hv) hip,
        SegmentReader.groupMightContainValid_of_mem (hpair hrt hi hvg) hip⟩
  have hover : (scan.validOverlap.all fun w => r.mightOverlapValid w.1 w.2) = true ∧
      (scan.validOverlap.all fun w => r.groupMightOverlapValid g w.1 w.2) = true := by
    cases hp : scan.validOverlap with
    | none => exact ⟨rfl, rfl⟩
    | some w =>
      obtain ⟨hrt, i, t, hi, hit, hwt⟩ := hwin w hp
      exact ⟨SegmentReader.mightOverlapValid_of_mem (hpair hrt hi hv) hit hwt,
        SegmentReader.groupMightOverlapValid_of_mem (hpair hrt hi hvg) hit hwt⟩
  have hcand : g ∈ r.rowGroups.filter (scan.keepsGroup begins r) := by
    refine List.mem_filter.2 ⟨hg, ?_⟩
    rw [keepsGroup, hzone g hvg, hpoint.2, hover.2]
    rfl
  have hmem : v ∈ (r.rowGroups.filter (scan.keepsGroup begins r)).flatten :=
    List.mem_flatten.2 ⟨g, hcand, hvg⟩
  have hends : (scan.index.sysUpperBound ((r.rowGroups.filter
      (scan.keepsGroup begins r)).flatten.map Version.id)).supersededAtOrBefore ends = false := by
    rw [Bool.eq_false_iff]
    intro hsup
    obtain ⟨ci, hci, hle⟩ := ValidityIndex.sysUpperBound_superseded hsup (List.mem_map_of_mem hmem)
    exact absurd (hopen ci hci) (not_lt.2 hle)
  refine List.mem_flatMap.2 ⟨r, hr, ?_⟩
  have hne : (r.rowGroups.filter (scan.keepsGroup begins r)).isEmpty = false := by
    rw [List.isEmpty_eq_false_iff]
    exact List.ne_nil_of_mem hcand
  simp only [pruneSegment, hzone r.rows hv, hpoint.1, hover.1, hne, hends, Bool.not_true,
    Bool.false_eq_true, if_false]
  exact hmem

/-! ### What a scan finds -/

namespace Reads

variable (h : scan.Reads H)
include h

theorem mem_deltaLive {v : Version} : v ∈ scan.deltaLive ↔
    HeldIn H (scan.delta.mem.iter ++ scan.delta.spillRows) v ∧
      Intervals.Contains v.sysPeriod scan.snapshot :=
  mem_live h.represents h.wellFormed h.writeOnce fun _ hv =>
    .inl ((List.mem_append.1 hv).imp_left KeyedMap.mem_values.1)

theorem mem_sealedLive {v : Version} : v ∈ scan.sealedLive ↔
    HeldIn H (scan.pruneSegments scan.snapshot scan.snapshot) v ∧
      Intervals.Contains v.sysPeriod scan.snapshot :=
  mem_live h.represents h.wellFormed h.writeOnce fun _ hv =>
    .inr (mem_sealedRows_of_mem_pruneSegments hv)

theorem mem_sealedInRange {range : TimeRange} {v : Version} : v ∈ scan.sealedInRange range ↔
    HeldIn H (scan.pruneSegments range.beginsAfterBound range.lo) v ∧
      range.overlaps v.sysFrom v.sysTo = true :=
  mem_inRange h.represents h.wellFormed h.writeOnce fun _ hv =>
    .inr (mem_sealedRows_of_mem_pruneSegments hv)

theorem mem_stagedVersions {v : Version} : v ∈ scan.delta.stagedVersions ↔ scan.delta.Holds v :=
  Delta.mem_mergeStaged fun _ _ hv hw hid =>
    h.represents.consistent h.wellFormed (.inl hv) (.inl hw) hid

theorem mem_deltaInRange {range : TimeRange} {v : Version} : v ∈ scan.deltaInRange range ↔
    HeldIn H scan.delta.stagedVersions v ∧ range.overlaps v.sysFrom v.sysTo = true :=
  mem_inRange h.represents h.wellFormed h.writeOnce fun _ hv => .inl (h.mem_stagedVersions.1 hv)

/-- Every version is in the delta tier or in a segment. -/
theorem held_cases {v : Version} (hv : H.Resolved v) :
    (HeldIn H (scan.delta.mem.iter ++ scan.delta.spillRows) v ∧
      HeldIn H scan.delta.stagedVersions v) ∨ ∃ r ∈ scan.segments, HeldIn H r.rows v := by
  obtain ⟨k, p, hp, rfl⟩ := hv
  rcases (h.represents.holds _).2 ⟨k, p, hp, rfl⟩ with hd | hs
  · refine .inl ⟨⟨k, p, hp, ?_, rfl⟩, ⟨k, p, hp, h.mem_stagedVersions.2 hd, rfl⟩⟩
    exact List.mem_append.2 (hd.imp_left fun hd => KeyedMap.mem_values.2 hd)
  · obtain ⟨r, hr, hv⟩ := List.mem_flatMap.1 hs
    exact .inr ⟨r, hr, k, p, hp, hv, rfl⟩

/-- A sealed version that is wanted is read. -/
theorem heldIn_pruneSegments {begins ends : SystemTimeMicros} {r : SegmentReader}
    (hr : r ∈ scan.segments) {v : Version} (hv : HeldIn H r.rows v) (hs : v.sysFrom ≤ begins)
    (hopen : ends < v.sysTo)
    (hpin : ∀ p ∈ scan.validSnapshot, r.validTime = true ∧
      ∃ i, v.validPair = some i ∧ Intervals.Contains i p)
    (hwin : ∀ w ∈ scan.validOverlap, r.validTime = true ∧
      ∃ i t, v.validPair = some i ∧ Intervals.Contains i t ∧ Intervals.Contains w t) :
    HeldIn H (scan.pruneSegments begins ends) v := by
  obtain ⟨k, p, hp, hmem, rfl⟩ := hv
  have hpair : (KeyPeriod.resolved k p).validPair = (KeyPeriod.version k p).validPair := by
    simp [Version.validPair, KeyPeriod.resolved]
  rw [hpair] at hpin hwin
  refine ⟨k, p, hp, mem_pruneSegments hr hmem (by simpa using hs) (fun ci hci => ?_) hpin hwin, rfl⟩
  -- the end that the index has for the version is the end of its period
  rw [KeyPeriod.resolved, ← h.represents.ends k p hp, ← KeyPeriod.version_id, hci] at hopen
  exact hopen

/-- A sealed row of a table with a valid-time axis can be read. -/
theorem readable_of_sealed {r : SegmentReader} (hr : r ∈ scan.segments) {v : Version}
    (hv : HeldIn H r.rows v) : scan.Readable v := by
  intro hvt
  obtain ⟨k, p, hp, hmem, rfl⟩ := hv
  obtain ⟨i, hi⟩ := (h.framed hvt r hr).2 _ hmem
  refine ⟨(_, i), stripFrame_eq_ok.2 ⟨?_, rfl⟩⟩
  simpa [Version.validPair, KeyPeriod.resolved] using hi

/-- **A point scan finds the versions whose period contains the snapshot**, of these the ones valid
at the valid snapshot. -/
theorem resolveRows_spec (hpin : scan.validSnapshot.isSome = true → scan.validTime = true)
    (hwin : scan.validOverlap = none)
    (hread : ∀ v, H.Resolved v → Intervals.Contains v.sysPeriod scan.snapshot → scan.Readable v) :
    ∃ rows, scan.resolveRows = .ok rows ∧
      rows.Pairwise (fun a b => a.businessKey < b.businessKey) ∧
        ∀ x, x ∈ rows ↔ ∃ v, H.Resolved v ∧ Intervals.Contains v.sysPeriod scan.snapshot ∧
        Opens scan.validTime scan.validSnapshot v x := by
  obtain ⟨dr, hdr, hd⟩ := validRows_of_readable hpin scan.deltaLive fun v hv =>
    hread v (h.mem_deltaLive.1 hv).1.resolved (h.mem_deltaLive.1 hv).2
  obtain ⟨sr, hsr, hs⟩ := validRows_of_readable hpin scan.sealedLive fun v hv =>
    hread v (h.mem_sealedLive.1 hv).1.resolved (h.mem_sealedLive.1 hv).2
  have hmem : ∀ x, x ∈ sr ++ dr ↔ ∃ v, H.Resolved v ∧
      Intervals.Contains v.sysPeriod scan.snapshot ∧
        Opens scan.validTime scan.validSnapshot v x := by
    intro x
    rw [List.mem_append, hs, hd]
    constructor
    · rintro (⟨v, hv, hx⟩ | ⟨v, hv, hx⟩)
      · exact ⟨v, (h.mem_sealedLive.1 hv).1.resolved, (h.mem_sealedLive.1 hv).2, hx⟩
      · exact ⟨v, (h.mem_deltaLive.1 hv).1.resolved, (h.mem_deltaLive.1 hv).2, hx⟩
    · rintro ⟨v, hv, hc, hx⟩
      rcases h.held_cases hv with ⟨hheld, -⟩ | ⟨r, hr, hheld⟩
      · exact .inr ⟨v, h.mem_deltaLive.2 ⟨hheld, hc⟩, hx⟩
      · refine .inl ⟨v, h.mem_sealedLive.2 ⟨?_, hc⟩, hx⟩
        refine h.heldIn_pruneSegments hr hheld hc.1 hc.2 (fun p hp => ?_) fun w hw => ?_
        · have hvt := hpin (by rw [Option.mem_def.1 hp]; rfl)
          rw [Opens, if_pos hvt] at hx
          obtain ⟨i, hi, hin⟩ := hx
          exact ⟨(h.framed hvt r hr).1, i, (stripFrame_eq_ok.1 hi).1, hin p hp⟩
        · rw [hwin] at hw
          cases hw
  have huniq : ∀ a ∈ sr ++ dr, ∀ b ∈ sr ++ dr, a.businessKey = b.businessKey → a = b := by
    intro a ha b hb hk
    obtain ⟨v, hv, hvc, hva⟩ := (hmem a).1 ha
    obtain ⟨w, hw, hwc, hwb⟩ := (hmem b).1 hb
    have hvw : v.businessKey = w.businessKey :=
      hva.businessKey.symm.trans (hk.trans hwb.businessKey)
    obtain rfl := hv.eq_of_contains hw h.wellFormed hvw hvc hwc
    exact hva.unique hwb
  refine ⟨(unionByKey id (sr ++ dr)).values, ?_, ?_, fun x => ?_⟩
  · rw [resolveRows, hdr, hsr]
    rfl
  · exact (unionByKey id (sr ++ dr)).values_pairwise
  · rw [KeyedMap.mem_values, mem_unionByKey (f := id) huniq, hmem]

/-- **The rows of a system range whose period contains an instant of the range** are those of the
versions whose period does; and these can all be read. -/
theorem executeRange_spec (hpin : scan.validSnapshot = none) (hwin : scan.validOverlap = none)
    {range : TimeRange} {rows : List Version} (hok : scan.executeRange range = .ok rows) :
    rows.Pairwise (fun a b => a.id < b.id) ∧ (∀ x ∈ rows, x.sysFrom < x.sysTo) ∧
      ∀ t, range.Includes t →
      (∀ v, H.Resolved v → Intervals.Contains v.sysPeriod t → scan.Readable v) ∧
      ∀ x, (x ∈ rows ∧ Intervals.Contains x.sysPeriod t) ↔ ∃ v, H.Resolved v ∧
        Intervals.Contains v.sysPeriod t ∧ Opens scan.validTime none v x := by
  cases hd : scan.stripRows (scan.deltaInRange range) with
  | error e => rw [executeRange, hd] at hok; cases hok
  | ok dr =>
    cases hs : scan.stripRows (scan.sealedInRange range) with
    | error e => rw [executeRange, hd, hs] at hok; cases hok
    | ok sr =>
      rw [executeRange, hd, hs] at hok
      cases hok
      obtain ⟨hdread, hdmem⟩ := stripRows_eq_ok hd
      obtain ⟨hsread, hsmem⟩ := stripRows_eq_ok hs
      have hsound : ∀ x, x ∈ sr ∨ x ∈ dr → ∃ v, H.Resolved v ∧
          range.overlaps v.sysFrom v.sysTo = true ∧ Opens scan.validTime none v x := by
        rintro x (hx | hx)
        · obtain ⟨v, hv, hx⟩ := (hsmem x).1 hx
          exact ⟨v, (h.mem_sealedInRange.1 hv).1.resolved, (h.mem_sealedInRange.1 hv).2, hx⟩
        · obtain ⟨v, hv, hx⟩ := (hdmem x).1 hx
          exact ⟨v, (h.mem_deltaInRange.1 hv).1.resolved, (h.mem_deltaInRange.1 hv).2, hx⟩
      have huniq : ∀ a, a ∈ sr ∨ a ∈ dr → ∀ b, b ∈ sr ∨ b ∈ dr → a.id = b.id → a = b := by
        intro a ha b hb hid
        obtain ⟨v, hv, -, hva⟩ := hsound a ha
        obtain ⟨w, hw, -, hwb⟩ := hsound b hb
        obtain rfl := hv.eq_of_id hw h.wellFormed (hva.id.symm.trans (hid.trans hwb.id))
        exact hva.unique hwb
      have hmem : ∀ x, x ∈ ((KeyedMap.ofList sr : KeyedMap Version.id).insertAll dr).values ↔
          x ∈ sr ∨ x ∈ dr := by
        have hof : ∀ x, x ∈ (KeyedMap.ofList sr : KeyedMap Version.id) ↔ x ∈ sr := fun x =>
          KeyedMap.mem_ofList fun a ha b hb => huniq a (.inl ha) b (.inl hb)
        intro x
        rw [KeyedMap.mem_values, KeyedMap.mem_insertAll, hof]
        · intro a ha b hb
          rw [hof] at ha
          exact huniq a ha b (.inr hb)
      refine ⟨KeyedMap.values_pairwise _, fun x hx => ?_, fun t ht => ?_⟩
      · obtain ⟨v, -, ho, hvx⟩ := hsound x ((hmem x).1 hx)
        obtain ⟨payload, rfl⟩ := hvx.eq
        simp only [TimeRange.overlaps, Bool.and_eq_true, decide_eq_true_eq] at ho
        exact ho.1.1
      · -- a version alive in the range is read, from wherever it is held
        have hread : ∀ v, H.Resolved v → Intervals.Contains v.sysPeriod t →
            v ∈ scan.deltaInRange range ∨ v ∈ scan.sealedInRange range := by
          intro v hv hc
          have ho := TimeRange.overlaps_of_contains ht hc
          rcases h.held_cases hv with ⟨-, hheld⟩ | ⟨r, hr, hheld⟩
          · exact .inl (h.mem_deltaInRange.2 ⟨hheld, ho⟩)
          · refine .inr (h.mem_sealedInRange.2 ⟨h.heldIn_pruneSegments hr hheld
              (TimeRange.le_beginsAfterBound ht hc.1) (ht.1.trans_lt hc.2) ?_ ?_, ho⟩)
            · intro p hp
              rw [hpin] at hp
              cases hp
            · intro w hw
              rw [hwin] at hw
              cases hw
        refine ⟨fun v hv hc => ?_, fun x => ?_⟩
        · exact (hread v hv hc).elim (hdread v) (hsread v)
        · rw [hmem]
          constructor
          · rintro ⟨hx, hc⟩
            obtain ⟨v, hv, -, hvx⟩ := hsound x hx
            exact ⟨v, hv, hvx.sysPeriod ▸ hc, hvx⟩
          · rintro ⟨v, hv, hc, hvx⟩
            refine ⟨?_, hvx.sysPeriod ▸ hc⟩
            rcases hread v hv hc with hd | hs
            · exact .inr ((hdmem x).2 ⟨v, hd, hvx⟩)
            · exact .inl ((hsmem x).2 ⟨v, hs, hvx⟩)

end Reads

/-- **The rows of a valid range whose interval contains an instant of the range** are those of the
versions live at the snapshot whose interval does; and these can all be read. -/
theorem Reads.executeValidRange_spec {range : TimeRange}
    (h : (scan.validRange range).Reads H) (hpin : scan.validSnapshot = none)
    {rows : List (Version × (ValidTimeMicros × ValidTimeMicros))}
    (hok : scan.executeValidRange range = .ok rows) :
    rows.Pairwise (fun a b => a.1.businessKey < b.1.businessKey) ∧ (∀ e ∈ rows, e.2.1 < e.2.2) ∧
      ∀ t, range.Includes t →
      (∀ v, H.Resolved v → Intervals.Contains v.sysPeriod scan.snapshot →
        (scan.validRange range).Readable v) ∧
      ∀ x i, ((x, i) ∈ rows ∧ Intervals.Contains i t) ↔ ∃ v, H.Resolved v ∧
        Intervals.Contains v.sysPeriod scan.snapshot ∧ stripFrame v = .ok (x, i) ∧
          Intervals.Contains i t := by
  cases hd : (scan.validRange range).deltaLive.mapM stripFrame with
  | error e => simp only [executeValidRange, hd] at hok; cases hok
  | ok dr =>
    cases hs : (scan.validRange range).sealedLive.mapM stripFrame with
    | error e => simp only [executeValidRange, hd, hs] at hok; cases hok
    | ok sr =>
      simp only [executeValidRange, hd, hs] at hok
      cases hok
      let met (e : Version × (ValidTimeMicros × ValidTimeMicros)) : Bool :=
        range.overlaps e.2.1 e.2.2
      have hmem : ∀ e, e ∈ sr.filter met ++ dr.filter met ↔
          (e ∈ sr ∨ e ∈ dr) ∧ range.overlaps e.2.1 e.2.2 = true := by
        intro e
        rw [List.mem_append, List.mem_filter, List.mem_filter, ← or_and_right]
      have hsound : ∀ e, e ∈ sr ∨ e ∈ dr → ∃ v, H.Resolved v ∧
          Intervals.Contains v.sysPeriod scan.snapshot ∧ stripFrame v = .ok e := by
        rintro e (he | he)
        · obtain ⟨v, hv, he⟩ := (mem_of_mapM_ok hs).1 he
          exact ⟨v, (h.mem_sealedLive.1 hv).1.resolved, (h.mem_sealedLive.1 hv).2, he⟩
        · obtain ⟨v, hv, he⟩ := (mem_of_mapM_ok hd).1 he
          exact ⟨v, (h.mem_deltaLive.1 hv).1.resolved, (h.mem_deltaLive.1 hv).2, he⟩
      have huniq : ∀ a ∈ sr.filter met ++ dr.filter met, ∀ b ∈ sr.filter met ++ dr.filter met,
          a.1.businessKey = b.1.businessKey → a = b := by
        intro a ha b hb hk
        obtain ⟨v, hv, hvc, hva⟩ := hsound a ((hmem a).1 ha).1
        obtain ⟨w, hw, hwc, hwb⟩ := hsound b ((hmem b).1 hb).1
        have hvk : a.1.businessKey = v.businessKey := by rw [(stripFrame_eq_ok.1 hva).2]
        have hwk : b.1.businessKey = w.businessKey := by rw [(stripFrame_eq_ok.1 hwb).2]
        obtain rfl := hv.eq_of_contains hw h.wellFormed (hvk.symm.trans (hk.trans hwk)) hvc hwc
        exact Except.ok.inj (hva.symm.trans hwb)
      have hvals : ∀ e, e ∈ (unionByKey Prod.fst (sr.filter met ++ dr.filter met)).values ↔
          (e ∈ sr ∨ e ∈ dr) ∧ range.overlaps e.2.1 e.2.2 = true := by
        intro e
        rw [KeyedMap.mem_values, mem_unionByKey huniq, hmem]
      refine ⟨?_, fun e he => ?_, fun t ht => ⟨fun v hv hc => ?_, fun x i => ?_⟩⟩
      · exact KeyedMap.values_pairwise _
      · have ho := ((hvals e).1 he).2
        simp only [TimeRange.overlaps, Bool.and_eq_true, decide_eq_true_eq] at ho
        exact ho.1.1
      · rcases h.held_cases hv with ⟨hheld, -⟩ | ⟨r, hr, hheld⟩
        · exact fun _ => (mapM_eq_ok.1 hd).1 v (h.mem_deltaLive.2 ⟨hheld, hc⟩)
        · exact h.readable_of_sealed hr hheld
      · rw [hvals]
        constructor
        · rintro ⟨⟨hx, -⟩, hi⟩
          obtain ⟨v, hv, hc, hvx⟩ := hsound _ hx
          exact ⟨v, hv, hc, hvx, hi⟩
        · rintro ⟨v, hv, hc, hvx, hi⟩
          refine ⟨⟨?_, TimeRange.overlaps_of_contains ht hi⟩, hi⟩
          rcases h.held_cases hv with ⟨hheld, -⟩ | ⟨r, hr, hheld⟩
          · exact .inr ((mem_of_mapM_ok hd).2 ⟨v, h.mem_deltaLive.2 ⟨hheld, hc⟩, hvx⟩)
          · -- the window of the range contains the instant, so the row is not skipped
            have hpair := (stripFrame_eq_ok.1 hvx).1
            have hmax : t < i64Max := hi.2.trans_le (Version.validPair_fits hpair).2.1.2
            have hin : Intervals.Contains range.pruneProbe t :=
              TimeRange.contains_pruneProbe ht hmax
            refine .inl ((mem_of_mapM_ok hs).2 ⟨v, h.mem_sealedLive.2 ⟨?_, hc⟩, hvx⟩)
            refine h.heldIn_pruneSegments hr hheld hc.1 hc.2 (fun p hp => ?_) fun w hw => ?_
            · rw [show (scan.validRange range).validSnapshot = none from hpin] at hp
              cases hp
            · obtain rfl : range.pruneProbe = w := Option.some.inj hw
              exact ⟨(h.framed rfl r hr).1, i, t, hpair, hi, hin⟩

end SnapshotScan

end SteleDb
