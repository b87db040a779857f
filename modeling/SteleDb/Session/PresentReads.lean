import SteleDb.Session.CatalogTimeline
import SteleDb.Session.TemporalJoin
import SteleDb.Sql.AsOf

/-!
# Reading the present

A query reads its tables at one system instant: the instant of `FOR SYSTEM_TIME AS OF`, or the
clock's reading if there is none.  CTEs, derived tables, join sides and subqueries are read at the
same instant; `FOR VALID_TIME AS OF` pins the valid axis of the tables and of the subqueries, not of
the CTEs.

Nothing changes after the last assigned instant, so every later instant should read the same.  The
end of what has not ended yet is a number too, and an instant can be that number.

* `Select.run` : what a query gives, by its shape; the work on rows that reads no table is a
  function;
* `SessionEngine.LastAssigned` : no instant after `c` has been assigned;
* `Stores.resolveRows_eq`, `Stores.executeRange_eq`, `executeValidRange_eq` : below the open end a
  scan reads the same, whatever it skips;
* `readsPresent_iff` : a later instant reads the present if and only if it is not the open end, or
  there are no tables;
* `not_readsPresent_open` : at the open end a table is refused as not live.

Left out are the access structures of secondary indexes, the columns of a row's provenance and the
writes of an open transaction, over which an `AS OF` does not look.
-/

namespace SteleDb

open AsOf (SqlExpr AsOfError resolveAsOf)

/-! ### Queries -/

/-- The axis of a qualifier. -/
inductive TimeDimension where
  | system
  | valid
  deriving DecidableEq, Repr

/-- Why a query is refused, or fails. -/
inductive SelectError where
  /-- Two instants for one axis. -/
  | multipleAsOf (dimension : TimeDimension)
  /-- An expression is not an instant. -/
  | asOf (e : AsOfError)
  /-- The range is empty. -/
  | emptySystemRange (start stop : ℤ) (closedUpper : Bool)
  /-- The name was never a table. -/
  | unknownTable (table : Name)
  /-- The name became a table after the instant. -/
  | beforeHistory (table : Name) (firstCommit : SystemTimeMicros)
  /-- The name is not a table at the instant. -/
  | tableNotLive (table : Name)
  /-- The table has no valid axis. -/
  | validTimeUnsupported (table : Name)
  /-- The scan fails. -/
  | scan (e : ScanError)
  /-- A row cannot be taken apart. -/
  | join (e : JoinError)
  /-- Of the work on rows. -/
  | other (what : Bytes)

/-- What a name is at a snapshot. -/
inductive TableResolution where
  | found (schema : TableSchema)
  | unknown
  | beforeHistory (firstCommit : SystemTimeMicros)
  | notLive
  deriving DecidableEq

/-- Look a name up, and tell the ways apart in which it is not a table. -/
def Catalog.resolveTableAt (c : Catalog) (table : Name) (snapshot : SystemTimeMicros) :
    TableResolution :=
  match c.resolve table snapshot with
  | some schema => .found schema
  | none =>
    match c.historyStart table with
    | none => .unknown
    | some first => if snapshot < first then .beforeHistory first else .notLive

/-- The rows of a relation. -/
structure Relation where
  /-- Its columns. -/
  header : Header
  /-- The cells of each row. -/
  rows : List Cells

/-- A bound query, by its shape. -/
inductive Select where
  /-- The rows of a table.  `nested`: the table of a subquery, read without a pin if it has no
  valid axis.  `window`: the rows that a period predicate asks for lie in it. -/
  | table (name : Name) (nested : Bool) (window : Option (ValidTimeMicros × ValidTimeMicros))
  /-- The rows of a table with a valid axis over a range of it, each with the ends of its
  interval. -/
  | validRange (name : Name) (range : TimeRange)
  /-- The rows of a CTE or a derived table in scope. -/
  | relation (name : Name)
  /-- A query over a CTE or a derived table, whose rows are made first. -/
  | withCte (name : Name) (body query : Select)
  /-- A step of a join. -/
  | join (left right : Select) (combine : Relation → Relation → Except SelectError Relation)
  /-- A `WHERE`, a projection, an aggregate or the order of the result. -/
  | shape (input : Select) (f : Relation → Except SelectError Relation)
  /-- A subquery that runs once. -/
  | subquery (input inner : Select) (fold : Relation → Relation → Except SelectError Relation)
  /-- A subquery that runs for each row, and says whether the row is kept. -/
  | correlated (input : Select) (inner : Cells → Select)
      (keeps : Cells → Relation → Except SelectError Bool)
  /-- A select list with a subquery that runs for each row, and gives a cell of it. -/
  | projected (input : Select) (inner : Cells → Select) (header : Header)
      (project : Cells → Relation → Except SelectError Cells)

namespace SessionEngine

variable (s : SessionEngine) (groupRows : ℕ)

/-- The pin of a table, if it can have one. -/
def validPin (name : Name) (schema : TableSchema) (nested : Bool)
    (valid : Option ValidTimeMicros) : Except SelectError (Option ValidTimeMicros) :=
  if schema.validTime.isSome then .ok valid
  else if nested ∨ valid = none then .ok none
  else .error (.validTimeUnsupported name)

/-- Read a table at a snapshot. -/
def readTable (snapshot : SystemTimeMicros) (valid : Option ValidTimeMicros) (name : Name)
    (nested : Bool) (window : Option (ValidTimeMicros × ValidTimeMicros)) :
    Except SelectError Relation :=
  match s.catalog.resolveTableAt name snapshot with
  | .unknown => .error (.unknownTable name)
  | .beforeHistory first => .error (.beforeHistory name first)
  | .notLive => .error (.tableNotLive name)
  | .found schema =>
    match validPin name schema nested valid with
    | .error e => .error e
    | .ok valid =>
      match s.tables[name]? with
      | none => .error (.unknownTable name)
      | some st =>
        match st.versionsAt groupRows snapshot valid window with
        | .error e => .error (.scan e)
        | .ok versions =>
          match versions.mapM (reconstruct (schema.columns.length - 1)) with
          | .error e => .error (.join e)
          | .ok rows => .ok ⟨schema.columns.map fun c => (c.name, c.ty), rows⟩

/-- Read a table at a snapshot over a range of its valid axis. -/
def readValidRange (snapshot : SystemTimeMicros) (name : Name) (range : TimeRange) :
    Except SelectError Relation :=
  match s.catalog.resolveTableAt name snapshot with
  | .unknown => .error (.unknownTable name)
  | .beforeHistory first => .error (.beforeHistory name first)
  | .notLive => .error (.tableNotLive name)
  | .found schema =>
    if schema.validTime = none then .error (.validTimeUnsupported name)
    else
      match s.tables[name]? with
      | none => .error (.unknownTable name)
      | some st =>
        match st.rangeVersions groupRows snapshot (.valid range) with
        | .error e => .error (.scan e)
        | .ok versions =>
          match versions.mapM fun e =>
              (reconstruct (schema.columns.length - 1) e.1).map fun row => (row, e.2) with
          | .error e => .error (.join e)
          | .ok rows => .ok ⟨(schema.columns.map fun c => (c.name, c.ty)) ++ endpoints,
              rows.map (withEndpoints (.valid range))⟩

end SessionEngine

/-- Keep the rows that pass a test that may fail. -/
def keepRows (keeps : Cells → Except SelectError Bool) :
    List Cells → Except SelectError (List Cells)
  | [] => .ok []
  | row :: rows => do
    let keep ← keeps row
    let rest ← keepRows keeps rows
    .ok (if keep then row :: rest else rest)

/-- What a query gives at a snapshot. -/
def Select.run (s : SessionEngine) (groupRows : ℕ) (snapshot : SystemTimeMicros) :
    Select → Option ValidTimeMicros → OrdMap Name Relation → Except SelectError Relation
  | .table name nested window, valid, _ => s.readTable groupRows snapshot valid name nested window
  | .validRange name range, _, _ => s.readValidRange groupRows snapshot name range
  | .relation name, _, scope =>
    match scope[name]? with
    | none => .error (.unknownTable name)
    | some r => .ok r
  | .withCte name body query, valid, scope => do
    -- the body has no pin of its own, and does not get the one of the statement
    let r ← body.run s groupRows snapshot none scope
    query.run s groupRows snapshot valid (scope.insert name r)
  | .join left right combine, valid, scope => do
    let l ← left.run s groupRows snapshot valid scope
    let r ← right.run s groupRows snapshot valid scope
    combine l r
  | .shape input f, valid, scope => do
    let r ← input.run s groupRows snapshot valid scope
    f r
  | .subquery input inner fold, valid, scope => do
    let i ← inner.run s groupRows snapshot valid scope
    let r ← input.run s groupRows snapshot valid scope
    fold r i
  | .correlated input inner keeps, valid, scope => do
    let r ← input.run s groupRows snapshot valid scope
    let rows ← keepRows (fun row => do
      let i ← (inner row).run s groupRows snapshot valid scope
      keeps row i) r.rows
    .ok ⟨r.header, rows⟩
  | .projected input inner header project, valid, scope => do
    let r ← input.run s groupRows snapshot valid scope
    let rows ← r.rows.mapM fun row => do
      let i ← (inner row).run s groupRows snapshot valid scope
      project row i
    .ok ⟨header, rows⟩

/-! ### Statements -/

section Statements

variable (display : SqlExpr → Bytes) (now : SystemTimeMicros)

/-- Fold an instant. -/
def foldInstant (e : SqlExpr) : Except SelectError ℤ := (resolveAsOf display now e).mapError .asOf

/-- The snapshots of the qualifiers: one for each axis at most. -/
def resolveSnapshots : Option ℤ → Option ℤ → List (TimeDimension × SqlExpr) →
    Except SelectError (SystemTimeMicros × Option ValidTimeMicros)
  | system, valid, [] => .ok (system.getD now, valid)
  | system, valid, (.system, e) :: rest =>
    if system.isSome then .error (.multipleAsOf .system)
    else do
      let t ← foldInstant display now e
      resolveSnapshots (some t) valid rest
  | system, valid, (.valid, e) :: rest =>
    if valid.isSome then .error (.multipleAsOf .valid)
    else do
      let t ← foldInstant display now e
      resolveSnapshots system (some t) rest

/-- The range of `FOR SYSTEM_TIME FROM … TO …`, or of `BETWEEN … AND …` if the upper end is
closed. -/
def resolveSystemRange (start stop : SqlExpr) (closedUpper : Bool) :
    Except SelectError TimeRange := do
  let lo ← foldInstant display now start
  let hi ← foldInstant display now stop
  if (if closedUpper then lo ≤ hi else lo < hi) then .ok ⟨lo, hi, closedUpper⟩
  else .error (.emptySystemRange lo hi closedUpper)

variable (s : SessionEngine) (groupRows : ℕ)

/-- Run a query with its `AS OF` qualifiers. -/
def runSelect (asOf : List (TimeDimension × SqlExpr)) (query : Select) :
    Except SelectError Relation := do
  let pins ← resolveSnapshots display now none none asOf
  query.run s groupRows pins.1 pins.2 ∅

/-- The versions of a table over a range of system time, with their periods. -/
def readSystemRange (name : Name) (range : TimeRange) :
    Except SelectError (TableSchema × List (Version × (ℤ × ℤ))) :=
  match s.catalog.resolveTableAt name now with
  | .unknown => .error (.unknownTable name)
  | .beforeHistory first => .error (.beforeHistory name first)
  | .notLive => .error (.tableNotLive name)
  | .found schema =>
    match s.tables[name]? with
    | none => .error (.unknownTable name)
    | some st =>
      match st.rangeVersions groupRows now (.system range) with
      | .error e => .error (.scan e)
      | .ok versions => .ok (schema, versions)

end Statements

/-! ### What has been assigned -/

/-- The ends of a period lie at or before `c`, but for an end that is open. -/
def Settled (c : SystemTimeMicros) (v : Version) : Prop :=
  v.sysFrom ≤ c ∧ (v.sysTo ≤ c ∨ v.sysTo = systemTimeOpen)

/-- Every instant in the database is `c` or earlier. -/
structure SessionEngine.LastAssigned (s : SessionEngine) (c : SystemTimeMicros) : Prop where
  fits : i64Min ≤ c
  catalog : s.catalog.Ordered c
  tables : ∀ (name : Name) (st : TableState), s.tables[name]? = some st →
    ∃ H, st.engine.Holds H ∧ ∀ k, ∀ e ∈ H k, e.instant ≤ c

/-- The instant lies in the present: at or after the last assigned one, and before the open end. -/
def IsPresent (c t : SystemTimeMicros) : Prop := c ≤ t ∧ t < systemTimeOpen

/-- The range reaches the last assigned instant. -/
def TimeRange.Reaches (r : TimeRange) (c : SystemTimeMicros) : Prop :=
  if r.closedUpper then c ≤ r.hi else c < r.hi

section Settled

variable {c t t' : SystemTimeMicros} {v : Version}

theorem Settled.lt_iff (h : Settled c v) (ht : IsPresent c t) (ht' : IsPresent c t') :
    t < v.sysTo ↔ t' < v.sysTo := by
  rcases h.2 with hle | hopen
  · exact iff_of_false (not_lt.2 (hle.trans ht.1)) (not_lt.2 (hle.trans ht'.1))
  · rw [hopen]
    exact iff_of_true ht.2 ht'.2

theorem TimeRange.Reaches.begins {r : TimeRange} (h : r.Reaches c) (hv : v.sysFrom ≤ c) :
    (if r.closedUpper then decide (v.sysFrom ≤ r.hi) else decide (v.sysFrom < r.hi)) = true := by
  unfold Reaches at h
  split_ifs at h ⊢
  · exact decide_eq_true (hv.trans h)
  · exact decide_eq_true (hv.trans_lt h)

theorem TimeRange.Reaches.le_beginsAfterBound {r : TimeRange} (h : r.Reaches c) :
    c ≤ r.beginsAfterBound := by
  unfold Reaches at h
  unfold beginsAfterBound
  split_ifs at h ⊢
  · exact h
  · exact le_max_of_le_left (Int.le_sub_one_of_lt h)

/-- Ranges that begin alike and reach the last assigned instant meet the same periods. -/
theorem Settled.overlaps_eq (h : Settled c v) {r r' : TimeRange} (hlo : r.lo = r'.lo)
    (hr : r.Reaches c) (hr' : r'.Reaches c) :
    r.overlaps v.sysFrom v.sysTo = r'.overlaps v.sysFrom v.sysTo := by
  have hb := hr.begins h.1
  have hb' := hr'.begins h.1
  unfold TimeRange.overlaps
  rw [hlo]
  split_ifs at hb hb' ⊢ <;> simp only [hb, hb']

/-- The versions of a history whose events are settled. -/
theorem History.Resolved.settled {H : History} (hc : ∀ k, ∀ e ∈ H k, e.instant ≤ c)
    (h : H.Resolved v) : Settled c v := by
  obtain ⟨k, p, hp, rfl⟩ := h
  refine ⟨?_, ?_⟩
  · obtain ⟨e, he, hstart, -⟩ := Timeline.exists_event_of_mem_periods hp
    rw [KeyPeriod.resolved_sysFrom, ← hstart]
    exact hc k e he
  · rcases hu : p.stop with _ | u
    · right
      rw [KeyPeriod.resolved, KeyPeriod.ending, hu]
      rfl
    · left
      rw [KeyPeriod.resolved_sysTo hu]
      exact hc k u ((Timeline.exists_event_of_stop hp hu).resolve_left (by simp))

end Settled

/-! ### Scans of the present -/

/-- An upper bound of ends that are settled is settled. -/
theorem ValidityIndex.le_of_sysUpperBoundFrom {ix : ValidityIndex} {c acc m : SystemTimeMicros}
    {ids : List VersionId} (hacc : acc ≤ c)
    (hends : ∀ i ci, ix.closeOf i = some ci → ci.sysTo ≤ c)
    (h : ix.sysUpperBoundFrom acc ids = .bounded m) : m ≤ c := by
  induction ids generalizing acc with
  | nil =>
    cases h
    exact hacc
  | cons i ids ih =>
    rw [sysUpperBoundFrom] at h
    rcases hi : ix.closeOf i with _ | ci
    · rw [hi] at h
      cases h
    · rw [hi] at h
      exact ih (max_le hacc (hends i ci hi)) h

/-- The tiers that are scanned store the histories `H`, whatever can be read of them. -/
structure SnapshotScan.Stores (scan : SnapshotScan) (H : History) : Prop where
  wellFormed : H.WellFormed
  represents : Represents (fun v => scan.delta.Holds v ∨ v ∈ scan.sealedRows) scan.index.closeOf H
  writeOnce : scan.index.WriteOnce

namespace SnapshotScan.Stores

variable {scan : SnapshotScan} {H : History} {c : SystemTimeMicros}
  (h : scan.Stores H) (hc : ∀ k, ∀ e ∈ H k, e.instant ≤ c) (hfits : i64Min ≤ c)
include h hc

theorem closeOf_le (i : VersionId) (ci : ClosedInterval) (hi : scan.index.closeOf i = some ci) :
    ci.sysTo ≤ c := by
  obtain ⟨k, x⟩ := i
  obtain ⟨p, hp, rfl⟩ := h.represents.only k x ci hi
  have hend := h.represents.ends k p hp
  rw [show scan.index.closeOf (toLex (k, KeyPeriod.pos p)) = some ci from hi] at hend
  rcases hu : p.stop with _ | u
  · rw [KeyPeriod.ending, hu] at hend
    cases hend
  · rw [KeyPeriod.ending, hu] at hend
    cases hend
    exact hc k u ((Timeline.exists_event_of_stop hp hu).resolve_left (by simp))

theorem sysFrom_le {v : Version} (hv : scan.delta.Holds v ∨ v ∈ scan.sealedRows) :
    v.sysFrom ≤ c := by
  obtain ⟨k, p, hp, rfl⟩ := (h.represents.holds v).1 hv
  have hsettled : Settled c (KeyPeriod.resolved k p) := History.Resolved.settled hc ⟨k, p, hp, rfl⟩
  simpa using hsettled.1

/-- The chains of stored versions. -/
theorem settled_of_mem_chain {T : List Version}
    (hT : ∀ v ∈ T, scan.delta.Holds v ∨ v ∈ scan.sealedRows) {key : BusinessKey}
    {chain : VersionChain} (hchain : (key, chain) ∈ (foldChains T scan.index).toList) {v : Version}
    (hv : v ∈ chain) : Settled c v := by
  obtain ⟨raw, hraw, -, hstamp⟩ := (mem_of_getElem?_foldChains
    (fun a ha b hb => h.represents.consistent h.wellFormed (hT a ha) (hT b hb)) h.writeOnce
    (OrdMap.mem_toList.1 hchain) v).1 hv
  have hheld : HeldIn H T v := (exists_stamp_iff h.represents hT).1 ⟨raw, hraw, hstamp⟩
  exact hheld.resolved.settled hc

theorem resolveSnapshot_eq {T : List Version}
    (hT : ∀ v ∈ T, scan.delta.Holds v ∨ v ∈ scan.sealedRows) {t t' : SystemTimeMicros}
    (ht : IsPresent c t) (ht' : IsPresent c t') :
    resolveSnapshot (foldChains T scan.index) t = resolveSnapshot (foldChains T scan.index) t' := by
  refine List.filterMap_congr fun e he => ?_
  have hsettled : ∀ v ∈ e.2, Settled c v := fun v hv => h.settled_of_mem_chain hc hT he hv
  -- every version of the chain has begun
  have hlast : e.2.lastLE (toLex (t, seqMax)) = e.2.lastLE (toLex (t', seqMax)) := by
    ext v
    simp only [KeyedMap.lastLE_eq_some]
    constructor
    all_goals
      rintro ⟨hmem, -, hmax⟩
      refine ⟨hmem, ?_, fun w hw _ => hmax w hw ?_⟩
    · exact Version.pos_le_iff.2 ((hsettled v hmem).1.trans ht'.1)
    · exact Version.pos_le_iff.2 ((hsettled w hw).1.trans ht.1)
    · exact Version.pos_le_iff.2 ((hsettled v hmem).1.trans ht.1)
    · exact Version.pos_le_iff.2 ((hsettled w hw).1.trans ht'.1)
  rw [liveInChain, liveInChain, hlast]
  rcases hv : e.2.lastLE (toLex (t', seqMax)) with _ | v
  · rfl
  · have hmem := (KeyedMap.lastLE_eq_some.1 hv).1
    simp only [Option.filter_some, (hsettled v hmem).lt_iff ht ht']

/-- The statistics of rows that have all begun. -/
theorem snapshotOverlaps_of_le {r : SegmentReader} {rows : List Version}
    (hrows : ∀ v ∈ rows, v ∈ scan.sealedRows) {t : SystemTimeMicros} (ht : c ≤ t) :
    (r.zoneMap rows).snapshotOverlaps t = true := by
  unfold ZoneMap.snapshotOverlaps SegmentReader.zoneMap
  simp only [SegmentReader.column]
  rcases hmin : (rows.map Version.sysFrom).min? with _ | lo
  · rfl
  rcases hmax : (rows.map Version.sysFrom).max? with _ | hi
  · rfl
  obtain ⟨v, hv, hlo⟩ := List.mem_map.1 (List.min?_mem hmin)
  have hle : lo ≤ t := hlo ▸ (h.sysFrom_le hc (.inr (hrows v hv))).trans ht
  simpa using hle

include hfits in
/-- What is skipped does not depend on where in the present a scan begins and ends to skip. -/
theorem pruneSegment_eq {r : SegmentReader} (hr : r ∈ scan.segments)
    {begins begins' ends ends' : SystemTimeMicros} (hb : c ≤ begins) (hb' : c ≤ begins')
    (he : ends = ends' ∨ c ≤ ends ∧ c ≤ ends') :
    scan.pruneSegment begins ends r = scan.pruneSegment begins' ends' r := by
  have hrow : ∀ v ∈ r.rows, v ∈ scan.sealedRows := fun v hv => List.mem_flatMap.2 ⟨r, hr, hv⟩
  have hmight : ∀ rows, (∀ v ∈ rows, v ∈ r.rows) → ∀ p,
      (r.zoneMap rows).mightContain p begins = (r.zoneMap rows).mightContain p begins' := by
    intro rows hsub p
    have hall : ∀ v ∈ rows, v ∈ scan.sealedRows := fun v hv => hrow v (hsub v hv)
    rw [ZoneMap.mightContain, ZoneMap.mightContain, h.snapshotOverlaps_of_le hc hall hb,
      h.snapshotOverlaps_of_le hc hall hb']
  have hkeep : r.rowGroups.filter (scan.keepsGroup begins r) =
      r.rowGroups.filter (scan.keepsGroup begins' r) := by
    refine List.filter_congr fun g hg => ?_
    rw [keepsGroup, keepsGroup, hmight g fun v hv => List.mem_flatten.2 ⟨g, hg, hv⟩]
  have hsup : ∀ ids, (scan.index.sysUpperBound ids).supersededAtOrBefore ends =
      (scan.index.sysUpperBound ids).supersededAtOrBefore ends' := by
    intro ids
    rcases he with rfl | ⟨he, he'⟩
    · rfl
    rcases hm : scan.index.sysUpperBound ids with m | _
    · have hle := ValidityIndex.le_of_sysUpperBoundFrom hfits (h.closeOf_le hc) hm
      simp only [ValidityIndex.SysUpperBound.supersededAtOrBefore, hle.trans he, hle.trans he']
    · rfl
  simp only [pruneSegment, hmight r.rows (fun v hv => hv), hkeep, hsup]

include hfits in
theorem pruneSegments_eq {begins begins' ends ends' : SystemTimeMicros} (hb : c ≤ begins)
    (hb' : c ≤ begins') (he : ends = ends' ∨ c ≤ ends ∧ c ≤ ends') :
    scan.pruneSegments begins ends = scan.pruneSegments begins' ends' :=
  List.flatMap_congr fun _ hr => h.pruneSegment_eq hc hfits hr hb hb' he

theorem deltaLive_eq {t : SystemTimeMicros} (hs : IsPresent c scan.snapshot) (ht : IsPresent c t) :
    scan.deltaLive = { scan with snapshot := t }.deltaLive :=
  h.resolveSnapshot_eq hc (fun _ hv => .inl ((List.mem_append.1 hv).imp_left KeyedMap.mem_values.1))
    hs ht

include hfits in
theorem sealedLive_eq {t : SystemTimeMicros} (hs : IsPresent c scan.snapshot) (ht : IsPresent c t) :
    scan.sealedLive = { scan with snapshot := t }.sealedLive := by
  have hprune : scan.pruneSegments scan.snapshot scan.snapshot = scan.pruneSegments t t :=
    h.pruneSegments_eq hc hfits hs.1 ht.1 (.inr ⟨hs.1, ht.1⟩)
  rw [sealedLive, hprune]
  exact h.resolveSnapshot_eq hc (fun v hv => .inr (mem_sealedRows_of_mem_pruneSegments hv)) hs ht

include hfits in
/-- **A scan reads the same at every instant of the present.** -/
theorem resolveRows_eq {t : SystemTimeMicros} (hs : IsPresent c scan.snapshot)
    (ht : IsPresent c t) :
    scan.resolveRows = { scan with snapshot := t }.resolveRows := by
  rw [resolveRows, h.deltaLive_eq hc hs ht, h.sealedLive_eq hc hfits hs ht]
  rfl

theorem resolveChainRange_eq {T : List Version}
    (hT : ∀ v ∈ T, scan.delta.Holds v ∨ v ∈ scan.sealedRows) {r r' : TimeRange} (hlo : r.lo = r'.lo)
    (hr : r.Reaches c) (hr' : r'.Reaches c) :
    resolveChainRange (foldChains T scan.index) r =
      resolveChainRange (foldChains T scan.index) r' :=
  List.flatMap_congr fun _ he => List.filter_congr fun _ hv =>
    (h.settled_of_mem_chain hc hT he (KeyedMap.mem_values.1 hv)).overlaps_eq hlo hr hr'

include hfits in
/-- **A range that reaches the last assigned instant reads the same wherever it ends.** -/
theorem executeRange_eq {r r' : TimeRange} (hlo : r.lo = r'.lo) (hr : r.Reaches c)
    (hr' : r'.Reaches c) : scan.executeRange r = scan.executeRange r' := by
  have hdelta : scan.deltaInRange r = scan.deltaInRange r' := by
    refine h.resolveChainRange_eq hc (fun v hv => .inl ?_) hlo hr hr'
    exact (Delta.mem_mergeStaged fun _ _ hv hw hid =>
      h.represents.consistent h.wellFormed (.inl hv) (.inl hw) hid).1 hv
  have hsealed : scan.sealedInRange r = scan.sealedInRange r' := by
    have hprune : scan.pruneSegments r.beginsAfterBound r.lo =
        scan.pruneSegments r'.beginsAfterBound r'.lo :=
      h.pruneSegments_eq hc hfits hr.le_beginsAfterBound hr'.le_beginsAfterBound (.inl hlo)
    rw [sealedInRange, hprune]
    exact h.resolveChainRange_eq hc (fun v hv => .inr (mem_sealedRows_of_mem_pruneSegments hv))
      hlo hr hr'
  rw [executeRange, executeRange, hdelta, hsealed]

end SnapshotScan.Stores

/-- **A scan of a valid range reads the same at every instant of the present.** -/
theorem SnapshotScan.executeValidRange_eq {scan : SnapshotScan} {H : History} {c : SystemTimeMicros}
    {range : TimeRange} (h : (scan.validRange range).Stores H)
    (hc : ∀ k, ∀ e ∈ H k, e.instant ≤ c) (hfits : i64Min ≤ c) {t : SystemTimeMicros}
    (hs : IsPresent c scan.snapshot) (ht : IsPresent c t) :
    scan.executeValidRange range = { scan with snapshot := t }.executeValidRange range := by
  have hs' : IsPresent c (scan.validRange range).snapshot := hs
  rw [executeValidRange, h.deltaLive_eq hc hs' ht, h.sealedLive_eq hc hfits hs' ht]
  rfl

namespace TableState

variable {st : TableState} {H : History} {c : SystemTimeMicros} {groupRows : ℕ}

/-- A scan over the opened segments finds the histories of the table. -/
theorem stores_of_open {readers : List SegmentReader} (hH : st.engine.Holds H)
    (hok : st.openSegmentReaders groupRows = .ok readers) {scan : SnapshotScan}
    (hdelta : scan.delta = st.engine.tiers.delta) (hindex : scan.index = st.engine.tiers.index)
    (hsegs : scan.segments = readers) : scan.Stores H := by
  obtain ⟨seg, hseg, hv⟩ := hH.read
  have hrows := (rows_openSegmentReaders hok hseg).1
  have hsealed : ∀ v, v ∈ scan.sealedRows ↔ v ∈ st.engine.sealedVersions := by
    intro v
    rw [SnapshotScan.sealedRows, hsegs, hrows, hv]
  refine ⟨hH.stores.wellFormed, ?_, ?_⟩
  · have hrep := hH.stores.represents
    simp only [hdelta, hindex, hsealed]
    exact hrep
  · rw [hindex]
    exact hH.stores.writeOnce

theorem versionsAt_eq (hH : st.engine.Holds H) (hc : ∀ k, ∀ e ∈ H k, e.instant ≤ c)
    (hfits : i64Min ≤ c) {t t' : SystemTimeMicros} (ht : IsPresent c t) (ht' : IsPresent c t')
    (valid : Option ValidTimeMicros) (window : Option (ValidTimeMicros × ValidTimeMicros)) :
    st.versionsAt groupRows t valid window = st.versionsAt groupRows t' valid window := by
  rcases hopen : st.openSegmentReaders groupRows with e | readers
  · simp only [versionsAt, hopen, bind, Except.bind]
  · simp only [versionsAt, hopen, bind, Except.bind]
    let scan : SnapshotScan := { st.scanAt readers t with validOverlap := window }
    cases valid with
    | none =>
      have hstores : scan.Stores H := stores_of_open hH hopen rfl rfl rfl
      have hread : scan.resolveRows = { scan with snapshot := t' }.resolveRows :=
        hstores.resolveRows_eq hc hfits ht ht'
      exact hread
    | some v =>
      have hstores : (scan.validAsOf v).Stores H := stores_of_open hH hopen rfl rfl rfl
      have hread : (scan.validAsOf v).resolveRows =
          { scan.validAsOf v with snapshot := t' }.resolveRows :=
        hstores.resolveRows_eq hc hfits ht ht'
      exact hread

theorem rangeVersions_eq (hH : st.engine.Holds H) (hc : ∀ k, ∀ e ∈ H k, e.instant ≤ c)
    (hfits : i64Min ≤ c) (now : SystemTimeMicros) {r r' : TimeRange} (hlo : r.lo = r'.lo)
    (hr : r.Reaches c) (hr' : r'.Reaches c) :
    st.rangeVersions groupRows now (.system r) = st.rangeVersions groupRows now (.system r') := by
  rcases hopen : st.openSegmentReaders groupRows with e | readers
  · simp only [rangeVersions, hopen, bind, Except.bind]
  · have hstores : (st.scanAt readers now).Stores H := stores_of_open hH hopen rfl rfl rfl
    simp only [rangeVersions, hopen, bind, Except.bind, hstores.executeRange_eq hc hfits hlo hr hr']

theorem validVersions_eq (hH : st.engine.Holds H) (hc : ∀ k, ∀ e ∈ H k, e.instant ≤ c)
    (hfits : i64Min ≤ c) {t t' : SystemTimeMicros} (ht : IsPresent c t) (ht' : IsPresent c t')
    (range : TimeRange) :
    st.rangeVersions groupRows t (.valid range) = st.rangeVersions groupRows t' (.valid range) := by
  rcases hopen : st.openSegmentReaders groupRows with e | readers
  · simp only [rangeVersions, hopen, bind, Except.bind]
  · have hstores : ((st.scanAt readers t).validRange range).Stores H :=
      stores_of_open hH hopen rfl rfl rfl
    have hread : (st.scanAt readers t).executeValidRange range =
        (st.scanAt readers t').executeValidRange range :=
      SnapshotScan.executeValidRange_eq hstores hc hfits ht ht'
    simp only [rangeVersions, hopen, bind, Except.bind, hread]

end TableState

/-! ### Names of the present -/

namespace Catalog

variable {cat : Catalog} {c t t' : SystemTimeMicros} {name : Name}

/-- A name that has a schema from some instant on is looked up alike at every later instant of the
present. -/
theorem Ordered.resolve_eq (h : cat.Ordered c) (ht : IsPresent c t) (ht' : IsPresent c t') :
    cat.resolve name t = cat.resolve name t' := by
  rcases List.eq_nil_or_concat (cat.versions name) with hnil | ⟨vs, last, hvs⟩
  · have hnone : ∀ x, cat.resolve name x = none := fun x => by
      change ((((cat.versions name).takeWhile _).getLast?.filter _).map _) = _
      rw [hnil]
      rfl
    rw [hnone, hnone]
  · rw [List.concat_eq_append] at hvs
    obtain ⟨-, hfrom, hto⟩ := h.era name last (by rw [hvs]; simp)
    rw [h.resolve_of_le hvs (hfrom.trans ht.1), h.resolve_of_le hvs (hfrom.trans ht'.1)]
    rcases hto with hopen | hle
    · rw [hopen, if_pos ht.2, if_pos ht'.2]
    · rw [if_neg (not_lt.2 (hle.trans ht.1)), if_neg (not_lt.2 (hle.trans ht'.1))]

/-- At the open end no name is a table. -/
theorem Ordered.resolve_open (h : cat.Ordered c) (hc : c ≤ systemTimeOpen) :
    cat.resolve name systemTimeOpen = none := by
  rcases List.eq_nil_or_concat (cat.versions name) with hnil | ⟨vs, last, hvs⟩
  · change ((((cat.versions name).takeWhile _).getLast?.filter _).map _) = _
    rw [hnil]
    rfl
  · rw [List.concat_eq_append] at hvs
    obtain ⟨-, hfrom, hto⟩ := h.era name last (by rw [hvs]; simp)
    rw [h.resolve_of_le hvs (hfrom.trans hc), if_neg]
    rcases hto with hopen | hle
    · rw [hopen]
      exact lt_irrefl _
    · exact not_lt.2 (hle.trans hc)

theorem Ordered.historyStart_le (h : cat.Ordered c) {first : SystemTimeMicros}
    (hfirst : cat.historyStart name = some first) : first ≤ c := by
  unfold historyStart at hfirst
  rcases hvs : cat.tables[name]? with _ | vs
  · rw [hvs] at hfirst
    cases hfirst
  · rcases vs with _ | ⟨v, vs⟩
    · rw [hvs] at hfirst
      cases hfirst
    · rw [hvs] at hfirst
      cases hfirst
      refine (h.era name v ?_).2.1
      simp [versions, hvs]

/-- Names are told apart alike, if they resolve alike. -/
theorem Ordered.resolveTableAt_eq (h : cat.Ordered c) (ht : c ≤ t) (ht' : c ≤ t')
    (heq : cat.resolve name t = cat.resolve name t') :
    cat.resolveTableAt name t = cat.resolveTableAt name t' := by
  unfold resolveTableAt
  rw [heq]
  rcases cat.resolve name t' with _ | schema
  · rcases hfirst : cat.historyStart name with _ | first
    · rfl
    · have hle := h.historyStart_le hfirst
      simp only [not_lt.2 (hle.trans ht), not_lt.2 (hle.trans ht'), if_false]
  · rfl

end Catalog

/-! ### Queries of the present -/

section Queries

variable {s : SessionEngine} {groupRows : ℕ} {c t t' now : SystemTimeMicros}
  {display : SqlExpr → Bytes}

/-- The tables read alike at two instants. -/
structure SessionEngine.ReadsAlike (s : SessionEngine) (groupRows : ℕ)
    (t t' : SystemTimeMicros) : Prop where
  point : ∀ valid name nested window, s.readTable groupRows t valid name nested window =
    s.readTable groupRows t' valid name nested window
  range : ∀ name range, s.readValidRange groupRows t name range =
    s.readValidRange groupRows t' name range

/-- A query over tables that read alike gives the same. -/
theorem Select.run_eq (h : s.ReadsAlike groupRows t t') (q : Select)
    (valid : Option ValidTimeMicros) (scope : OrdMap Name Relation) :
    q.run s groupRows t valid scope = q.run s groupRows t' valid scope := by
  induction q generalizing valid scope with
  | table name nested window => exact h.point valid name nested window
  | validRange name range => exact h.range name range
  | relation name => rfl
  | withCte name body query ihBody ihQuery => simp only [run, ihBody, ihQuery]
  | join left right combine ihLeft ihRight => simp only [run, ihLeft, ihRight]
  | shape input f ih => simp only [run, ih]
  | subquery input inner fold ihInput ihInner => simp only [run, ihInput, ihInner]
  | correlated input inner keeps ihInput ihInner => simp only [run, ihInput, ihInner]
  | projected input inner header project ihInput ihInner => simp only [run, ihInput, ihInner]

/-- A table reads the same at every instant of the present. -/
theorem SessionEngine.LastAssigned.readsAlike (h : s.LastAssigned c) (ht : IsPresent c t)
    (ht' : IsPresent c t') : s.ReadsAlike groupRows t t' := by
  have hname : ∀ name, s.catalog.resolveTableAt name t = s.catalog.resolveTableAt name t' :=
    fun name => h.catalog.resolveTableAt_eq ht.1 ht'.1 (h.catalog.resolve_eq ht ht')
  constructor
  · intro valid name nested window
    unfold readTable
    rw [hname]
    rcases cat : s.catalog.resolveTableAt name t' with schema | _ | first | _
    · rcases hst : s.tables[name]? with _ | st
      · rfl
      · obtain ⟨H, hH, hc⟩ := h.tables name st hst
        simp only [st.versionsAt_eq hH hc h.fits ht ht']
    all_goals rfl
  · intro name range
    unfold readValidRange
    rw [hname]
    rcases cat : s.catalog.resolveTableAt name t' with schema | _ | first | _
    · rcases hst : s.tables[name]? with _ | st
      · rfl
      · obtain ⟨H, hH, hc⟩ := h.tables name st hst
        simp only [st.validVersions_eq hH hc h.fits ht ht']
    all_goals rfl

/-- Where no name is a table none is read. -/
theorem readsAlike_of_none (h : s.LastAssigned c) (ht : c ≤ t) (ht' : c ≤ t')
    (hnone : ∀ name, s.catalog.resolve name t = none)
    (hnone' : ∀ name, s.catalog.resolve name t' = none) : s.ReadsAlike groupRows t t' := by
  have hname : ∀ name, s.catalog.resolveTableAt name t = s.catalog.resolveTableAt name t' :=
    fun name => h.catalog.resolveTableAt_eq ht ht' ((hnone name).trans (hnone' name).symm)
  have hfound : ∀ name schema, s.catalog.resolveTableAt name t' ≠ .found schema := by
    intro name schema
    unfold Catalog.resolveTableAt
    rw [hnone']
    rcases s.catalog.historyStart name with _ | first
    · exact nofun
    · by_cases hlt : t' < first
      · simp [hlt]
      · simp [hlt]
  constructor
  · intro valid name nested window
    unfold SessionEngine.readTable
    rw [hname]
    rcases cat : s.catalog.resolveTableAt name t' with schema | _ | first | _
    · exact absurd cat (hfound name schema)
    all_goals rfl
  · intro name range
    unfold SessionEngine.readValidRange
    rw [hname]
    rcases cat : s.catalog.resolveTableAt name t' with schema | _ | first | _
    · exact absurd cat (hfound name schema)
    all_goals rfl

/-- A statement pinned to an instant that a query reads like now. -/
theorem runSelect_pin {e : SqlExpr} (he : resolveAsOf display now e = .ok t)
    (valid : Option SqlExpr) {query : Select}
    (heq : ∀ v scope, query.run s groupRows t v scope = query.run s groupRows now v scope) :
    runSelect display now s groupRows
      ((.system, e) :: valid.toList.map fun v => (.valid, v)) query =
      runSelect display now s groupRows (valid.toList.map fun v => (.valid, v)) query := by
  have hfold : foldInstant display now e = .ok t := by rw [foldInstant, he]; rfl
  rcases valid with _ | v
  · simp only [runSelect, Option.toList_none, List.map_nil, resolveSnapshots, hfold, bind,
      Except.bind, Option.isSome_none, Bool.false_eq_true, if_false, Option.getD_some,
      Option.getD_none, heq]
  · simp only [runSelect, Option.toList_some, List.map_cons, List.map_nil, resolveSnapshots, hfold,
      bind, Except.bind, Option.isSome_none, Bool.false_eq_true, if_false]
    rcases foldInstant display now v with err | x
    · rfl
    · simp only [Option.getD_some, Option.getD_none, heq]

end Queries

/-- Every query reads at the instant `t` what it reads now, however `t` is written. -/
def ReadsPresent (display : SqlExpr → Bytes) (now : SystemTimeMicros) (s : SessionEngine)
    (groupRows : ℕ) (t : SystemTimeMicros) : Prop :=
  ∀ (e : SqlExpr) (valid : Option SqlExpr) (query : Select), resolveAsOf display now e = .ok t →
    runSelect display now s groupRows
      ((.system, e) :: valid.toList.map fun v => (.valid, v)) query =
      runSelect display now s groupRows (valid.toList.map fun v => (.valid, v)) query

/-- A range read gives the same versions wherever it ends, if it reaches `c`. -/
def RangesReadPresent (display : SqlExpr → Bytes) (now : SystemTimeMicros) (s : SessionEngine)
    (groupRows : ℕ) (c : SystemTimeMicros) : Prop :=
  ∀ (name : Name) (start stop stop' : SqlExpr) (closed : Bool) (r r' : TimeRange),
    resolveSystemRange display now start stop closed = .ok r →
    resolveSystemRange display now start stop' closed = .ok r' → r.Reaches c → r'.Reaches c →
      readSystemRange now s groupRows name r = readSystemRange now s groupRows name r'

section Present

variable {s : SessionEngine} {groupRows : ℕ} {c t now : SystemTimeMicros}
    {display : SqlExpr → Bytes}

theorem rangesReadPresent (h : s.LastAssigned c) : RangesReadPresent display now s groupRows c := by
  intro name start stop stop' closed r r' hr hr' hreach hreach'
  have hlo : r.lo = r'.lo := by
    unfold resolveSystemRange at hr hr'
    rcases hs : foldInstant display now start with e | lo
    · rw [hs] at hr
      cases hr
    rcases hstop : foldInstant display now stop with e | hi
    · simp only [hs, hstop, bind, Except.bind] at hr
      cases hr
    rcases hstop' : foldInstant display now stop' with e | hi'
    · simp only [hs, hstop', bind, Except.bind] at hr'
      cases hr'
    simp only [hs, hstop, hstop', bind, Except.bind] at hr hr'
    split_ifs at hr hr'
    all_goals
      cases hr
      cases hr'
      rfl
  unfold readSystemRange
  rcases s.catalog.resolveTableAt name now with schema | _ | first | _
  · rcases hst : s.tables[name]? with _ | st
    · rfl
    · obtain ⟨H, hH, hc⟩ := h.tables name st hst
      simp only [st.rangeVersions_eq hH hc h.fits now hlo hreach hreach']
  all_goals rfl

/-- The instants of one kind, or no tables: every table reads alike. -/
theorem readsAlike_of_kind (h : s.LastAssigned c) (hnow : c ≤ now) (hnowFits : FitsI64 now)
    (ht : c ≤ t) (htFits : FitsI64 t)
    (hkind : (t < systemTimeOpen ↔ now < systemTimeOpen) ∨
      ∀ name, s.catalog.resolve name c = none) : s.ReadsAlike groupRows t now := by
  have hopen : ∀ x, FitsI64 x → ¬x < systemTimeOpen → x = systemTimeOpen := fun x hx hnlt =>
    le_antisymm hx.2 (not_lt.1 hnlt)
  by_cases hlt : t < systemTimeOpen
  · by_cases hnlt : now < systemTimeOpen
    · exact h.readsAlike ⟨ht, hlt⟩ ⟨hnow, hnlt⟩
    · obtain rfl := hopen now hnowFits hnlt
      have hnone := hkind.resolve_left fun hiff => hnlt (hiff.1 hlt)
      refine readsAlike_of_none h ht hnow (fun name => ?_) fun name => h.catalog.resolve_open hnow
      rw [h.catalog.resolve_eq ⟨ht, hlt⟩ ⟨le_rfl, ht.trans_lt hlt⟩, hnone]
  · obtain rfl := hopen t htFits hlt
    by_cases hnlt : now < systemTimeOpen
    · have hnone := hkind.resolve_left fun hiff => hlt (hiff.2 hnlt)
      refine readsAlike_of_none h ht hnow (fun name => h.catalog.resolve_open ht) fun name => ?_
      rw [h.catalog.resolve_eq ⟨hnow, hnlt⟩ ⟨le_rfl, hnow.trans_lt hnlt⟩, hnone]
    · rw [hopen now hnowFits hnlt]
      exact ⟨fun _ _ _ _ => rfl, fun _ _ => rfl⟩

/-- The rows of a table, as they are. -/
def selectAll (name : Name) : Select := .table name false none

/-- At the open end the rows of a table are not found. -/
theorem run_selectAll_open (h : s.LastAssigned c) (hc : c < systemTimeOpen) {name : Name}
    (hlive : s.catalog.resolve name c ≠ none) :
    (selectAll name).run s groupRows systemTimeOpen none ∅ = .error (.tableNotLive name) := by
  have hnone : s.catalog.resolve name systemTimeOpen = none := h.catalog.resolve_open hc.le
  have hhist : ∃ first, s.catalog.historyStart name = some first ∧ ¬systemTimeOpen < first := by
    rcases hfirst : s.catalog.historyStart name with _ | first
    · refine absurd ?_ hlive
      unfold Catalog.historyStart at hfirst
      unfold Catalog.resolve
      rcases hvs : s.catalog.tables[name]? with _ | vs
      · rfl
      · rw [hvs] at hfirst
        rcases vs with _ | ⟨v, vs⟩
        · rfl
        · cases hfirst
    · exact ⟨first, rfl, not_lt.2 ((h.catalog.historyStart_le hfirst).trans hc.le)⟩
  obtain ⟨first, hfirst, hnlt⟩ := hhist
  have hres : s.catalog.resolveTableAt name systemTimeOpen = .notLive := by
    simp only [Catalog.resolveTableAt, hnone, hfirst, hnlt, if_false]
  rw [selectAll, Select.run, SessionEngine.readTable, hres]

/-- In the present they are. -/
theorem run_selectAll_present (h : s.LastAssigned c) (ht : IsPresent c t) {name : Name}
    (hlive : s.catalog.resolve name c ≠ none) :
    (selectAll name).run s groupRows t none ∅ ≠ .error (.tableNotLive name) := by
  rw [← h.catalog.resolve_eq ht ⟨le_rfl, ht.1.trans_lt ht.2⟩] at hlive
  rcases hschema : s.catalog.resolve name t with _ | schema
  · exact absurd hschema hlive
  have hres : s.catalog.resolveTableAt name t = .found schema := by
    simp only [Catalog.resolveTableAt, hschema]
  have hpin : SessionEngine.validPin name schema false none = .ok none := by
    unfold SessionEngine.validPin
    by_cases hvalid : schema.validTime.isSome = true
    · rw [if_pos hvalid]
    · rw [if_neg hvalid, if_pos (.inr rfl)]
  rw [selectAll, Select.run, SessionEngine.readTable, hres]
  simp only [hpin]
  rcases s.tables[name]? with _ | st
  · exact nofun
  rcases hv : st.versionsAt groupRows t none none with e | versions
  · simp only [hv]
    exact nofun
  rcases hrows : versions.mapM (reconstruct (schema.columns.length - 1)) with e | rows
  · simp only [hv, hrows]
    exact nofun
  · simp only [hv, hrows]
    exact nofun

/-- The instant can be written as a literal. -/
theorem ReadsPresent.run_eq (h : ReadsPresent display now s groupRows t) (htFits : FitsI64 t)
    (query : Select) :
    query.run s groupRows t none ∅ = query.run s groupRows now none ∅ := by
  have hfold : foldInstant display now (AsOf.instantLiteral t) = .ok t := by
    rw [foldInstant, AsOf.resolveAsOf_literal htFits]
    rfl
  have heq := h (AsOf.instantLiteral t) none query (AsOf.resolveAsOf_literal htFits)
  simpa only [runSelect, Option.toList_none, List.map_nil, resolveSnapshots, hfold, bind,
    Except.bind, Option.isSome_none, Bool.false_eq_true, if_false, Option.getD_some,
    Option.getD_none] using heq

/-- **A later instant reads the present** if and only if it is below the open end, as the clock's
reading is, or there are no tables.  Ranges read alike wherever they end. -/
theorem readsPresent_iff (h : s.LastAssigned c) (hnow : c ≤ now) (hnowFits : FitsI64 now)
    (ht : c ≤ t) (htFits : FitsI64 t) :
    (ReadsPresent display now s groupRows t ∧ RangesReadPresent display now s groupRows c) ↔
      (t < systemTimeOpen ↔ now < systemTimeOpen) ∨ ∀ name, s.catalog.resolve name c = none := by
  constructor
  · rintro ⟨hreads, -⟩
    by_contra hno
    rw [not_or, not_forall] at hno
    obtain ⟨hkind, name, hlive⟩ := hno
    have heq := hreads.run_eq htFits (selectAll name)
    -- one of the two instants is the open end, the other is not
    by_cases hlt : t < systemTimeOpen
    · have hnlt : ¬now < systemTimeOpen := fun hnlt => hkind ⟨fun _ => hnlt, fun _ => hlt⟩
      obtain rfl : now = systemTimeOpen := le_antisymm hnowFits.2 (not_lt.1 hnlt)
      exact run_selectAll_present h ⟨ht, hlt⟩ hlive
        (heq.trans (run_selectAll_open h (ht.trans_lt hlt) hlive))
    · have hnlt : now < systemTimeOpen := by
        by_contra hnlt
        exact hkind ⟨fun h => absurd h hlt, fun h => absurd h hnlt⟩
      obtain rfl : t = systemTimeOpen := le_antisymm htFits.2 (not_lt.1 hlt)
      exact run_selectAll_present h ⟨hnow, hnlt⟩ hlive
        (heq.symm.trans (run_selectAll_open h (hnow.trans_lt hnlt) hlive))
  · intro hkind
    refine ⟨fun e valid query he => runSelect_pin he valid fun v scope => ?_,
      rangesReadPresent h⟩
    exact Select.run_eq (readsAlike_of_kind h hnow hnowFits ht htFits hkind) query v scope

end Present

/-! ### A table -/

theorem keyColumn_ne_nil : ([107] : Name) ≠ [] := by decide

/-- A database with the table `t`, created at 10, and no rows. -/
def oneTable : SessionEngine where
  clock := ⟨fun _ => 0, 0, 10⟩
  catalog := ((Catalog.createTable {} [116] [⟨[107], .int8, keyColumn_ne_nil⟩] none 10).toOption.map
    Prod.fst).getD {}
  tables := (∅ : OrdMap Name TableState).insert [116] ⟨{}, false, 0⟩

theorem createTable_oneTable : Catalog.createTable {} [116] [⟨[107], .int8, by decide⟩] none 10 =
    .ok (oneTable.catalog, 1) := rfl

theorem lastAssigned_oneTable : oneTable.LastAssigned 10 where
  fits := by decide
  catalog := (Catalog.Ordered.empty 0).createTable (by decide) createTable_oneTable
  tables name st hst := by
    refine ⟨History.empty, ?_, fun k e he => nomatch he⟩
    rw [oneTable, OrdMap.getElem?_insert] at hst
    split_ifs at hst
    · cases hst
      exact (Engine.sound_empty false []).holds
    · simp at hst

theorem resolve_oneTable : oneTable.catalog.resolve [116] 10 ≠ none := by decide

/-- A row is sealed, another one is written. -/
def rowCalls : List Call :=
  [.write ⟨12, [1], 1, [], .insert none (some [7]) 0⟩, .flush,
    .write ⟨15, [2], 2, [], .insert none none 0⟩]

/-- The table with two rows. -/
def twoRowTable : SessionEngine :=
  { oneTable with
    clock := ⟨fun _ => 0, 0, 15⟩
    tables := (∅ : OrdMap Name TableState).insert [116] ⟨Engine.run false [] rowCalls, false, 0⟩ }

theorem lastAssigned_twoRowTable : twoRowTable.LastAssigned 15 where
  fits := by decide
  catalog := lastAssigned_oneTable.catalog.mono (by decide)
  tables name st hst := by
    have hseq : SeqContract (rowCalls.flatMap Call.writes) := by
      simp [SeqContract, rowCalls, Call.writes, DmlWrite.seq]
    have hroom : Engine.CompactsInTime false [] rowCalls := fun past hp =>
      absurd (hp.subset (by simp)) (by simp [rowCalls] : Call.compact ∉ rowCalls)
    obtain ⟨H, hsound, -⟩ := Engine.sound_run hseq hroom
    rw [twoRowTable, OrdMap.getElem?_insert] at hst
    split_ifs at hst
    · cases hst
      refine ⟨H, hsound.holds, fun k ev hev => ?_⟩
      obtain ⟨prev, hprev, hle⟩ := hsound.stamped k ev hev
      have hlast : (Engine.run false [] rowCalls).writer.writer.lastCommit = some 15 := by decide
      rw [hlast] at hprev
      cases hprev
      exact hle
    · simp at hst

theorem readsPresent_twoRowTable : ReadsPresent (fun _ => []) 20 twoRowTable 1 30 :=
  ((readsPresent_iff lastAssigned_twoRowTable (by decide) (by decide) (by decide) (by decide)).2
    (.inl (by decide))).1

/-- `SELECT * FROM t FOR SYSTEM_TIME AS OF 9223372036854775807` is refused: the table is not
live. -/
theorem not_readsPresent_open : ¬ReadsPresent (fun _ => []) 20 oneTable 1 9223372036854775807 := by
  intro h
  have heq := h.run_eq (by decide) (selectAll [116])
  have hopen : (selectAll [116]).run oneTable 1 systemTimeOpen none ∅ =
      .error (.tableNotLive [116]) :=
    run_selectAll_open lastAssigned_oneTable (by decide) resolve_oneTable
  exact run_selectAll_present lastAssigned_oneTable ⟨by decide, by decide⟩ resolve_oneTable
    (heq.symm.trans hopen)

end SteleDb
