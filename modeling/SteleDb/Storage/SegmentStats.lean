import SteleDb.Lib.ExceptMap
import SteleDb.Lib.LexBounds
import SteleDb.Storage.ZoneMap

/-!
# The statistics of a sealed segment

The writer of a segment puts into the footer, for every column of every row group, a lower and an
upper bound of the values.  A bound of an `i64` column is exact.  A bound of a byte column has at
most 64 bytes: a longer least value is cut and a longer greatest value is rounded up, and a bound
with no bytes left is recorded as open.  The reader decodes the bounds, joins those of the row
groups to bounds of the segment, and rules out what a predicate cannot reach.

* `SegmentWriter.finish` : the writer, as far as the footer's statistics go;
* `SegmentFooter.open` : the reader;
* `StatMap.mightContain` : the test;
* `SegmentWriter.mightContain_of_satisfies` : the test never rules out a stored row that has begun
  by the snapshot and satisfies the predicate.

`SteleDb.Storage.ZoneMap` has what a scan asks of these statistics: ranges of instants.
-/

namespace SteleDb

open LexBounds

/-- What the writer and the reader of a segment refuse. -/
inductive SegmentError where
  /-- A length or a count does not fit its field. -/
  | tooLarge (what : String)
  /-- Bytes that no writer produces. -/
  | corrupt (what : String)
  deriving DecidableEq, Repr

/-! ### Columns -/

/-- The layout of a column's values. -/
inductive ColumnType where
  | i64
  | bytes
  deriving DecidableEq, Repr

/-- The columns of a segment, in the order of their ids. -/
inductive ColumnId where
  | businessKey
  | sysFrom
  | payload
  | txnId
  | committedAt
  | principal
  | validFrom
  | validTo
  | retractKey
  | retractSysFrom
  | retractClosedAt
  | retractClosedByTxn
  | retractClosedByCommittedAt
  | retractClosedByPrincipal
  | seq
  | retractSeq
  deriving DecidableEq, Repr

namespace ColumnId

/-- The number of a column in the file. -/
def toU16 : ColumnId → ℕ
  | businessKey => 0
  | sysFrom => 1
  | payload => 2
  | txnId => 3
  | committedAt => 4
  | principal => 5
  | validFrom => 6
  | validTo => 7
  | retractKey => 8
  | retractSysFrom => 9
  | retractClosedAt => 10
  | retractClosedByTxn => 11
  | retractClosedByCommittedAt => 12
  | retractClosedByPrincipal => 13
  | seq => 14
  | retractSeq => 15

/-- The layout of a column. -/
def ty : ColumnId → ColumnType
  | businessKey | payload | principal | retractKey | retractClosedByPrincipal => .bytes
  | _ => .i64

/-- The columns of a row group: with a valid-time axis there are two more. -/
def schema (validTime : Bool) : List ColumnId :=
  [businessKey, sysFrom, seq, payload, txnId, committedAt, principal] ++
    if validTime then [validFrom, validTo] else []

/-- The columns of the retraction section. -/
def retraction : List ColumnId :=
  [retractKey, retractSysFrom, retractSeq, retractClosedAt, retractClosedByTxn,
    retractClosedByCommittedAt, retractClosedByPrincipal]

end ColumnId

/-- The bits of a `u64` as an `i64`. -/
def u64AsI64 (n : ℕ) : ℤ := if n < 2 ^ 63 then n else n - 2 ^ 64

theorem fitsI64_u64AsI64 {n : ℕ} (h : n < 2 ^ 64) : FitsI64 (u64AsI64 n) := by
  simp only [FitsI64, u64AsI64, i64Min, i64Max]
  split_ifs <;> omega

/-! ### Bounds -/

/-- The value of a cell, or a bound of such values. -/
inductive ZoneBound where
  | i64 (x : ℤ)
  | bytes (b : Bytes)
  deriving DecidableEq, Repr

/-- One end of a column's values. -/
inductive ZoneEnd where
  /-- A bound. -/
  | value (b : ZoneBound)
  /-- No bound on this side. -/
  | unbounded
  deriving DecidableEq, Repr

namespace ZoneBound

/-- The order within a variant; bounds of different variants are not comparable. -/
def cmpSameVariant : ZoneBound → ZoneBound → Option Ordering
  | i64 a, i64 b => some (cmp a b)
  | bytes a, bytes b => some (cmp a b)
  | _, _ => none

/-- Provably less. -/
def isBelow (a b : ZoneBound) : Bool := a.cmpSameVariant b = some .lt

/-- Provably greater. -/
def isAbove (a b : ZoneBound) : Bool := a.cmpSameVariant b = some .gt

end ZoneBound

namespace ZoneEnd

/-- As a lower bound: the value is provably below it. -/
def prunesBelow (e : ZoneEnd) (x : ZoneBound) : Bool :=
  match e with
  | value least => x.isBelow least
  | unbounded => false

/-- As an upper bound: the value is provably above it. -/
def prunesAbove (e : ZoneEnd) (x : ZoneBound) : Bool :=
  match e with
  | value greatest => x.isAbove greatest
  | unbounded => false

end ZoneEnd

/-- The bounds of a column. -/
structure ColumnZone where
  /-- Lower bound. -/
  least : ZoneEnd
  /-- Upper bound. -/
  greatest : ZoneEnd
  deriving DecidableEq, Repr

/-- What a scan may ask of the values of a row. -/
inductive StatPredicate where
  /-- Nothing. -/
  | all
  /-- The column has this value. -/
  | eq (column : ColumnId) (value : ZoneBound)
  /-- The column lies between two values, both included. -/
  | range (column : ColumnId) (low high : ZoneBound)
  /-- All the parts hold. -/
  | and (parts : List StatPredicate)

/-- The bounds of the columns that have any. -/
structure StatMap where
  /-- In the order of the column ids. -/
  columns : List (ColumnId × ColumnZone)
  deriving DecidableEq, Repr

namespace StatMap

/-- From the ends of the columns; a column without them is left out. -/
def fromBounds (bounds : List (ColumnId × Option ZoneEnd × Option ZoneEnd)) : StatMap where
  columns := (bounds.filterMap fun b =>
    match b.2.1, b.2.2 with
    | some least, some greatest => some (b.1, ⟨least, greatest⟩)
    | _, _ => none).mergeSort fun a b => a.1.toU16 ≤ b.1.toU16

/-- The bounds of a column. -/
def column (z : StatMap) (col : ColumnId) : Option ColumnZone :=
  (z.columns.find? fun c => c.1 = col).map Prod.snd

/-- Some row may have begun by the snapshot. -/
def snapshotOverlaps (z : StatMap) (snapshot : SystemTimeMicros) : Bool :=
  match z.column .sysFrom with
  | some ⟨.value (.i64 least), _⟩ => ! decide (snapshot < least)
  | _ => true

mutual

/-- Some row may satisfy the predicate. -/
def satisfies (z : StatMap) : StatPredicate → Bool
  | .all => true
  | .eq col value => (z.column col).all fun zone =>
      !zone.least.prunesBelow value && !zone.greatest.prunesAbove value
  | .range col low high => (z.column col).all fun zone =>
      !zone.least.prunesBelow high && !zone.greatest.prunesAbove low
  | .and parts => z.satisfiesAll parts

/-- Some row may satisfy each of the predicates. -/
def satisfiesAll (z : StatMap) : List StatPredicate → Bool
  | [] => true
  | p :: parts => z.satisfies p && z.satisfiesAll parts

end

/-- Some row that has begun by the snapshot may satisfy the predicate. -/
def mightContain (z : StatMap) (p : StatPredicate) (snapshot : SystemTimeMicros) : Bool :=
  z.snapshotOverlaps snapshot && z.satisfies p

end StatMap

/-! ### The writer -/

/-- One end of a column in the writer. -/
inductive StatBound where
  /-- The column has no values. -/
  | absent
  /-- The bytes of a bound. -/
  | value (bytes : Bytes)
  /-- The end is open. -/
  | unbounded
  deriving DecidableEq, Repr

/-- The bytes of a bound in the footer. -/
def StatBound.bytes : StatBound → Bytes
  | .value b => b
  | .absent | .unbounded => []

/-- A column chunk in the footer: its statistics. -/
structure FooterEntry where
  /-- The column. -/
  columnId : ColumnId
  /-- The flag of an open lower end. -/
  minUnbounded : Bool
  /-- The flag of an open upper end. -/
  maxUnbounded : Bool
  /-- The lower bound. -/
  minBytes : Bytes
  /-- The upper bound. -/
  maxBytes : Bytes
  deriving DecidableEq, Repr

/-- The entry of a column with these ends. -/
def FooterEntry.of (col : ColumnId) (stats : StatBound × StatBound) : FooterEntry where
  columnId := col
  minUnbounded := stats.1 = .unbounded
  maxUnbounded := stats.2 = .unbounded
  minBytes := stats.1.bytes
  maxBytes := stats.2.bytes

/-- The footer of a segment. -/
structure SegmentFooter where
  /-- The column chunks of each row group. -/
  rowGroups : List (List FooterEntry)
  /-- The column chunks of the retraction section. -/
  retractions : List FooterEntry
  deriving DecidableEq, Repr

/-- The most bytes of a recorded bound. -/
def maxBytesStatPrefixLen : ℕ := 64

/-- A lower bound of at most 64 bytes. -/
def boundedMinPrefix (value : Bytes) : Bytes := value.take maxBytesStatPrefixLen

/-- The next byte. -/
def byteSucc (b : Fin 256) : Option (Fin 256) :=
  if h : b.val + 1 < 256 then some ⟨b.val + 1, h⟩ else none

/-- An upper bound of at most 64 bytes; without bytes if there is none. -/
def boundedMaxPrefix (value : Bytes) : Bytes :=
  if value.length ≤ maxBytesStatPrefixLen then value
  else roundUp byteSucc (value.take maxBytesStatPrefixLen)

/-- A bound without bytes is open. -/
def boundOrUnbounded (b : Bytes) : StatBound := if b = [] then .unbounded else .value b

/-- The statistics of a byte column; `NULL` cells are skipped. -/
def encodeBytesValues (values : List (Option Bytes)) :
    Except SegmentError (StatBound × StatBound) :=
  let present := values.reduceOption
  if ∃ b ∈ present, 2 ^ 32 ≤ b.length then
    .error (.tooLarge "value length exceeds u32::MAX in one chunk")
  else
    .ok (present.min?.elim .absent fun m => boundOrUnbounded (boundedMinPrefix m),
      present.max?.elim .absent fun m => boundOrUnbounded (boundedMaxPrefix m))

/-- The statistics of an `i64` column. -/
def encodeI64Values (values : List ℤ) : StatBound × StatBound :=
  (values.min?.elim .absent fun x => .value (i64ToLeBytes x),
    values.max?.elim .absent fun x => .value (i64ToLeBytes x))

/-- The cell of a byte column.  With a valid-time axis the interval in front of the payload has its
own columns. -/
def extractBytes (col : ColumnId) (row : Version) (validTime : Bool) :
    Except SegmentError (Option Bytes) :=
  match col with
  | .businessKey => .ok (some row.businessKey)
  | .payload =>
    match row.payload with
    | none => .ok none
    | some stored =>
      if validTime then
        if stored.length < validTimePrefixLen then
          .error (.corrupt "valid-time payload shorter than its interval prefix")
        else .ok (some (stored.drop validTimePrefixLen))
      else .ok (some stored)
  | .principal => .ok (some row.provenance.principal)
  | _ => .ok none -- not a byte column of a row group

/-- The cell of an `i64` column that is a field of the version. -/
def extractI64 (col : ColumnId) (row : Version) : ℤ :=
  match col with
  | .sysFrom => row.sysFrom
  | .seq => u64AsI64 row.seq
  | .txnId => u64AsI64 row.provenance.txnId
  | .committedAt => row.provenance.committedAt
  | _ => 0 -- not such a column

/-- The interval in front of a payload. -/
def decodeValidPair (row : Version) : Except SegmentError (ℤ × ℤ) :=
  match row.payload with
  | none => .error (.corrupt
      "valid-time row has a NULL payload, which cannot carry a valid-time interval")
  | some stored =>
    match ValidInterval.decodePrefix stored with
    | .ok pair => .ok pair
    | .error _ => .error (.corrupt
        "valid-time payload could not be decoded into valid_from/valid_to columns")

/-- The statistics of a column of a row group; `pairs` are the intervals of its rows. -/
def encodeColumn (col : ColumnId) (rows : List Version) (pairs : Option (List (ℤ × ℤ))) :
    Except SegmentError (StatBound × StatBound) :=
  match col.ty with
  | .bytes => do
    let values ← rows.mapM fun row => extractBytes col row pairs.isSome
    encodeBytesValues values
  | .i64 => .ok <| encodeI64Values <|
    match col with
    | .validFrom => (pairs.getD []).map Prod.fst
    | .validTo => (pairs.getD []).map Prod.snd
    | _ => rows.map (extractI64 col)

/-- The statistics of a column of the retraction section. -/
def encodeRetractionColumn (col : ColumnId) (closes : List Close) :
    Except SegmentError (StatBound × StatBound) :=
  match col with
  | .retractKey => encodeBytesValues (closes.map fun c => some c.businessKey)
  | .retractClosedByPrincipal => encodeBytesValues (closes.map fun c => some c.closedBy.principal)
  | .retractSysFrom => .ok (encodeI64Values (closes.map Close.sysFrom))
  | .retractSeq => .ok (encodeI64Values (closes.map fun c => u64AsI64 c.seq))
  | .retractClosedAt => .ok (encodeI64Values (closes.map Close.sysTo))
  | .retractClosedByTxn => .ok (encodeI64Values (closes.map fun c => u64AsI64 c.closedBy.txnId))
  | .retractClosedByCommittedAt =>
    .ok (encodeI64Values (closes.map fun c => c.closedBy.committedAt))
  | _ => .ok (.absent, .absent) -- not such a column

/-- A segment being written. -/
structure SegmentWriter where
  /-- The rows, in the order of their arrival. -/
  rows : List Version := []
  /-- The tombstones. -/
  retractions : List Close := []
  /-- The table has a valid-time axis. -/
  validTime : Bool
  /-- The most rows of a row group. -/
  maxRowGroupRows : Option ℕ := none
  deriving DecidableEq, Repr

namespace SegmentWriter

/-- Bound the row groups. -/
def withMaxRowGroupRows (w : SegmentWriter) (rows : ℕ) : SegmentWriter :=
  { w with maxRowGroupRows := some (max rows 1) }

/-- Add a row. -/
def push (w : SegmentWriter) (v : Version) : Except SegmentError SegmentWriter :=
  if v.Encodable then .ok { w with rows := w.rows ++ [v] }
  else .error (.tooLarge "version frame")

/-- Add a tombstone. -/
def pushRetraction (w : SegmentWriter) (c : Close) : Except SegmentError SegmentWriter :=
  if 2 ^ 32 ≤ c.businessKey.length ∨ 2 ^ 32 ≤ c.closedBy.principal.length then
    .error (.tooLarge "retraction key/principal length exceeds u32::MAX in one chunk")
  else .ok { w with retractions := w.retractions ++ [c] }

/-- Push rows one after another, and then tombstones. -/
def pushAll (w : SegmentWriter) (versions : List Version) (retractions : List Close) :
    Except SegmentError SegmentWriter := do
  let w ← versions.foldlM push w
  retractions.foldlM pushRetraction w

theorem foldlM_push {versions : List Version} {w w' : SegmentWriter}
    (h : versions.foldlM push w = .ok w') :
    w' = { w with rows := w.rows ++ versions } ∧ ∀ v ∈ versions, v.Encodable := by
  induction versions generalizing w with
  | nil =>
    cases h
    simp
  | cons v versions ih =>
    rw [List.foldlM_cons, push] at h
    split_ifs at h with hv
    · obtain ⟨rfl, hall⟩ := ih h
      exact ⟨by simp, List.forall_mem_cons.2 ⟨hv, hall⟩⟩
    · cases h

theorem foldlM_pushRetraction {closes : List Close} {w w' : SegmentWriter}
    (h : closes.foldlM pushRetraction w = .ok w') :
    w' = { w with retractions := w.retractions ++ closes } := by
  induction closes generalizing w with
  | nil =>
    cases h
    simp
  | cons c closes ih =>
    rw [List.foldlM_cons, pushRetraction] at h
    split_ifs at h
    · cases h
    · obtain rfl := ih h
      simp

/-- What was pushed is there, and a row that was pushed fits into a frame of the log. -/
theorem pushAll_eq_ok {w w' : SegmentWriter} {versions : List Version} {retractions : List Close}
    (h : w.pushAll versions retractions = .ok w') :
    w' = { w with rows := w.rows ++ versions, retractions := w.retractions ++ retractions } ∧
      ∀ v ∈ versions, v.Encodable := by
  obtain ⟨mid, hmid, h⟩ := exists_of_bind_ok h
  obtain ⟨rfl, hall⟩ := foldlM_push hmid
  exact ⟨foldlM_pushRetraction h, hall⟩

/-- The row groups. -/
def groups (w : SegmentWriter) : List (List Version) :=
  match w.maxRowGroupRows with
  | none => [w.rows]
  | some n => rowGroupsOf n w.rows

/-- The column chunks of a row group. -/
def encodeGroup (w : SegmentWriter) (group : List Version) (pairs : Option (List (ℤ × ℤ))) :
    Except SegmentError (List FooterEntry) :=
  if 2 ^ 32 ≤ group.length then .error (.tooLarge "row count exceeds u32::MAX in one row-group")
  else (ColumnId.schema w.validTime).mapM fun col =>
    (FooterEntry.of col) <$> encodeColumn col group pairs

/-- The column chunks of row groups; `pairs` are the intervals of their rows. -/
def encodeGroups (w : SegmentWriter) :
    List (List Version) → Option (List (ℤ × ℤ)) → Except SegmentError (List (List FooterEntry))
  | [], _ => .ok []
  | group :: rest, pairs => do
    let entries ← w.encodeGroup group (pairs.map (List.take group.length))
    let more ← w.encodeGroups rest (pairs.map (List.drop group.length))
    pure (entries :: more)

/-- The intervals of all rows, if the table has the axis. -/
def validPairs (w : SegmentWriter) : Except SegmentError (Option (List (ℤ × ℤ))) :=
  if w.validTime then some <$> w.rows.mapM decodeValidPair else .ok none

/-- The retraction section; a segment without tombstones has none. -/
def encodeRetractions (w : SegmentWriter) : Except SegmentError (List FooterEntry) :=
  if 2 ^ 32 ≤ w.retractions.length then .error (.tooLarge "retraction count exceeds u32::MAX")
  else if w.retractions = [] then .ok []
  else ColumnId.retraction.mapM fun col =>
    (FooterEntry.of col) <$> encodeRetractionColumn col w.retractions

/-- Seal the segment: its footer.  That the file also keeps the sizes of its chunks below 4 GiB only
refuses more. -/
def finish (w : SegmentWriter) : Except SegmentError SegmentFooter := do
  let pairs ← w.validPairs
  let rowGroups ← w.encodeGroups w.groups pairs
  let retractions ← w.encodeRetractions
  pure ⟨rowGroups, retractions⟩

end SegmentWriter

/-! ### The reader -/

/-- A decoded column chunk. -/
structure ColumnChunkMeta where
  /-- The column. -/
  columnId : ColumnId
  /-- Lower end. -/
  statMin : Option ZoneEnd
  /-- Upper end. -/
  statMax : Option ZoneEnd
  deriving DecidableEq, Repr

/-- Read one end of a column. -/
def decodeStat (col : ColumnId) (bytes : Bytes) (unbounded : Bool) :
    Except SegmentError (Option ZoneEnd) :=
  if unbounded then
    if col.ty ≠ .bytes then .error (.corrupt "unbounded stat flag set on a non-bytes column")
    else if bytes ≠ [] then
      .error (.corrupt "unbounded stat flag set but the stat field carries bytes")
    else .ok (some .unbounded)
  else if bytes = [] then .ok none
  else
    match col.ty with
    | .i64 =>
      if bytes.length = 8 then .ok (some (.value (.i64 (i64OfLeBytes bytes))))
      else .error (.corrupt "i64 column stat is not 8 bytes")
    | .bytes => .ok (some (.value (.bytes bytes)))

/-- Read a column chunk. -/
def FooterEntry.decode (e : FooterEntry) : Except SegmentError ColumnChunkMeta := do
  let statMin ← decodeStat e.columnId e.minBytes e.minUnbounded
  let statMax ← decodeStat e.columnId e.maxBytes e.maxUnbounded
  pure ⟨e.columnId, statMin, statMax⟩

/-- The candidate is the smaller lower end. -/
def endIsSmaller (cand : ZoneEnd) (cur : Option ZoneEnd) : Bool :=
  match cur, cand with
  | some .unbounded, _ => false
  | none, _ => true
  | some (.value _), .unbounded => true
  | some (.value c), .value v => v.cmpSameVariant c = some .lt

/-- The candidate is the larger upper end. -/
def endIsLarger (cand : ZoneEnd) (cur : Option ZoneEnd) : Bool :=
  match cur, cand with
  | some .unbounded, _ => false
  | none, _ => true
  | some (.value _), .unbounded => true
  | some (.value c), .value v => v.cmpSameVariant c = some .gt

/-- Take an end into account. -/
def foldEnd (replaces : ZoneEnd → Option ZoneEnd → Bool) (cur : Option ZoneEnd) :
    Option ZoneEnd → Option ZoneEnd
  | none => cur
  | some e => if replaces e cur then some e else cur

/-- The bounds of the columns over some chunks. -/
def zoneMapFromMetas (metas : List ColumnChunkMeta) : StatMap :=
  let present := (metas.map ColumnChunkMeta.columnId).eraseDups
  .fromBounds <| present.map fun col =>
    let chunks := metas.filter fun c => c.columnId = col
    (col, (chunks.map ColumnChunkMeta.statMin).foldl (foldEnd endIsSmaller) none,
      (chunks.map ColumnChunkMeta.statMax).foldl (foldEnd endIsLarger) none)

/-- The resident statistics of an opened segment. -/
structure SegmentStats where
  /-- Those of the segment, tombstones included. -/
  zoneMap : StatMap
  /-- Those of each row group. -/
  rowGroupZoneMaps : List StatMap
  deriving DecidableEq, Repr

/-- Open a segment: decode the footer and join the statistics. -/
def SegmentFooter.open (f : SegmentFooter) : Except SegmentError SegmentStats := do
  let rowGroups ← f.rowGroups.mapM fun entries => entries.mapM FooterEntry.decode
  let retractions ← f.retractions.mapM FooterEntry.decode
  pure ⟨zoneMapFromMetas (rowGroups.flatten ++ retractions), rowGroups.map zoneMapFromMetas⟩

/-! ### What a row satisfies -/

namespace ZoneBound

/-- The layout of a value. -/
def ty : ZoneBound → ColumnType
  | i64 _ => .i64
  | bytes _ => .bytes

/-- At most the other, which is of the same variant. -/
def Le : ZoneBound → ZoneBound → Prop
  | i64 a, i64 b => a ≤ b
  | bytes a, bytes b => a ≤ b
  | _, _ => False

theorem Le.refl (a : ZoneBound) : a.Le a := by
  cases a <;> exact le_rfl

-- the order of byte strings is decided by the instance for lists, not by that of the linear order

theorem cmp_bytes_eq_lt {x y : Bytes} : cmp x y = .lt ↔ x < y := by
  unfold cmp cmpUsing
  split_ifs with h <;> simp [h]

theorem cmp_bytes_eq_gt {x y : Bytes} : cmp x y = .gt ↔ y < x := by
  unfold cmp cmpUsing
  split_ifs with h h'
  · simp [h.le]
  · simp [h']
  · simp [h']

theorem Le.cases {a b : ZoneBound} (h : a.Le b) :
    (∃ x y, a = i64 x ∧ b = i64 y ∧ x ≤ y) ∨ ∃ x y, a = bytes x ∧ b = bytes y ∧ x ≤ y := by
  match a, b, h with
  | i64 x, i64 y, h => exact .inl ⟨x, y, rfl, rfl, h⟩
  | bytes x, bytes y, h => exact .inr ⟨x, y, rfl, rfl, h⟩

theorem Le.trans {a b c : ZoneBound} (hab : a.Le b) (hbc : b.Le c) : a.Le c := by
  match a, b, c, hab, hbc with
  | i64 _, i64 _, i64 _, hab, hbc => exact le_trans hab hbc
  | bytes _, bytes _, bytes _, hab, hbc => exact le_trans hab hbc

theorem Le.isBelow {a b : ZoneBound} (h : a.Le b) : b.isBelow a = false := by
  obtain ⟨x, y, rfl, rfl, hle⟩ | ⟨x, y, rfl, rfl, hle⟩ := h.cases <;>
    simpa [ZoneBound.isBelow, cmpSameVariant, cmp_bytes_eq_lt] using hle

theorem Le.isAbove {a b : ZoneBound} (h : a.Le b) : a.isAbove b = false := by
  obtain ⟨x, y, rfl, rfl, hle⟩ | ⟨x, y, rfl, rfl, hle⟩ := h.cases <;>
    simpa [ZoneBound.isAbove, cmpSameVariant, cmp_bytes_eq_gt] using hle

section Comparable

variable {a b : ZoneBound}

-- values of one layout are comparable

theorem le_of_not_isBelow (hty : a.ty = b.ty) (h : a.isBelow b = false) : b.Le a := by
  match a, b, hty with
  | i64 x, i64 y, _ => exact not_lt.1 (by simpa [isBelow, cmpSameVariant] using h)
  | bytes x, bytes y, _ =>
    exact not_lt.1 (by simpa [isBelow, cmpSameVariant, cmp_bytes_eq_lt] using h)

theorem le_of_not_isAbove (hty : a.ty = b.ty) (h : a.isAbove b = false) : a.Le b := by
  match a, b, hty with
  | i64 x, i64 y, _ => exact not_lt.1 (by simpa [isAbove, cmpSameVariant] using h)
  | bytes x, bytes y, _ =>
    exact not_lt.1 (by simpa [isAbove, cmpSameVariant, cmp_bytes_eq_gt] using h)

theorem le_of_isBelow (hty : a.ty = b.ty) (h : a.isBelow b = true) : a.Le b := by
  match a, b, hty with
  | i64 x, i64 y, _ => exact le_of_lt (by simpa [isBelow, cmpSameVariant] using h)
  | bytes x, bytes y, _ =>
    exact le_of_lt (by simpa [isBelow, cmpSameVariant, cmp_bytes_eq_lt] using h)

theorem le_of_isAbove (hty : a.ty = b.ty) (h : a.isAbove b = true) : b.Le a := by
  match a, b, hty with
  | i64 x, i64 y, _ => exact le_of_lt (by simpa [isAbove, cmpSameVariant] using h)
  | bytes x, bytes y, _ =>
    exact le_of_lt (by simpa [isAbove, cmpSameVariant, cmp_bytes_eq_gt] using h)

end Comparable

end ZoneBound

/-- The cell of a row in a column, as the segment stores it: a `u64` by its bits, the payload
without the interval of the valid-time axis. -/
def Version.cell (v : Version) (validTime : Bool) (col : ColumnId) : Option ZoneBound :=
  match col with
  | .businessKey => some (.bytes v.businessKey)
  | .payload => v.payload.map fun stored =>
      .bytes (if validTime then stored.drop validTimePrefixLen else stored)
  | .principal => some (.bytes v.provenance.principal)
  | .sysFrom | .seq | .txnId | .committedAt => some (.i64 (extractI64 col v))
  | .validFrom => if validTime then v.validPair.map fun pair => .i64 pair.1 else none
  | .validTo => if validTime then v.validPair.map fun pair => .i64 pair.2 else none
  | _ => none

namespace StatPredicate

mutual

/-- The cells of a row satisfy the predicate; a `NULL` cell satisfies no comparison. -/
def Holds (cell : ColumnId → Option ZoneBound) : StatPredicate → Prop
  | .all => True
  | .eq col value => cell col = some value
  | .range col low high => ∃ x, cell col = some x ∧ low.Le x ∧ x.Le high
  | .and parts => HoldsAll cell parts

/-- The cells of a row satisfy each of the predicates. -/
def HoldsAll (cell : ColumnId → Option ZoneBound) : List StatPredicate → Prop
  | [] => True
  | p :: parts => Holds cell p ∧ HoldsAll cell parts

end

end StatPredicate

/-! ### The test -/

/-- As a lower end: at or below the value. -/
def ZoneEnd.AtMost (e : ZoneEnd) (x : ZoneBound) : Prop := ∀ b, e = .value b → b.Le x

/-- As an upper end: at or above the value. -/
def ZoneEnd.AtLeast (e : ZoneEnd) (x : ZoneBound) : Prop := ∀ b, e = .value b → x.Le b

/-- The value lies within the bounds. -/
def ColumnZone.Covers (zone : ColumnZone) (x : ZoneBound) : Prop :=
  zone.least.AtMost x ∧ zone.greatest.AtLeast x

namespace ColumnZone.Covers

variable {zone : ColumnZone} {x y : ZoneBound}

theorem not_prunesBelow (h : zone.Covers x) (hy : x.Le y) : zone.least.prunesBelow y = false := by
  cases he : zone.least with
  | unbounded => rfl
  | value b => exact ((h.1 b he).trans hy).isBelow

theorem not_prunesAbove (h : zone.Covers x) (hy : y.Le x) :
    zone.greatest.prunesAbove y = false := by
  cases he : zone.greatest with
  | unbounded => rfl
  | value b => exact (hy.trans (h.2 b he)).isAbove

end ColumnZone.Covers

namespace StatMap

/-- The bounds cover the cells of a row. -/
def CoversRow (z : StatMap) (cell : ColumnId → Option ZoneBound) : Prop :=
  ∀ col zone x, z.column col = some zone → cell col = some x → zone.Covers x

variable {z : StatMap} {cell : ColumnId → Option ZoneBound}

theorem CoversRow.all (h : z.CoversRow cell) {col : ColumnId} {x low high : ZoneBound}
    (hx : cell col = some x) (hlow : low.Le x) (hhigh : x.Le high) :
    ((z.column col).all fun zone =>
      !zone.least.prunesBelow high && !zone.greatest.prunesAbove low) = true := by
  cases hz : z.column col with
  | none => rfl
  | some zone =>
    have hcov := h col zone x hz hx
    simp [hcov.not_prunesBelow hhigh, hcov.not_prunesAbove hlow]

mutual

theorem CoversRow.satisfies (h : z.CoversRow cell) :
    ∀ p : StatPredicate, p.Holds cell → z.satisfies p = true
  | .all, _ => rfl
  | .eq _ value, hp => h.all hp (.refl value) (.refl value)
  | .range _ _ _, ⟨_, hx, hlow, hhigh⟩ => h.all hx hlow hhigh
  | .and parts, hp => h.satisfiesAll parts hp

theorem CoversRow.satisfiesAll (h : z.CoversRow cell) :
    ∀ parts : List StatPredicate, StatPredicate.HoldsAll cell parts → z.satisfiesAll parts = true
  | [], _ => rfl
  | p :: parts, hp => by
    rw [StatMap.satisfiesAll, h.satisfies p hp.1, h.satisfiesAll parts hp.2, Bool.and_self]

end

/-- Bounds that cover a row do not rule it out. -/
theorem CoversRow.mightContain (h : z.CoversRow cell) {t snapshot : SystemTimeMicros}
    (hcell : cell .sysFrom = some (.i64 t)) (hs : t ≤ snapshot) {p : StatPredicate}
    (hp : p.Holds cell) : z.mightContain p snapshot = true := by
  rw [StatMap.mightContain, h.satisfies p hp, Bool.and_true, snapshotOverlaps]
  split
  · rename_i least _ hz
    have hle : least ≤ t := (h _ _ _ hz hcell).1 _ rfl
    simpa using hle.trans hs
  · rfl

end StatMap

/-! ### Joining chunks -/

/-- An end of a column with this layout. -/
def ZoneEnd.HasType (e : ZoneEnd) (ty : ColumnType) : Prop := ∀ b, e = .value b → b.ty = ty

section FoldEnd

variable {replaces : ZoneEnd → Option ZoneEnd → Bool} {Good : ZoneEnd → Prop} {ty : ColumnType}
  {cur o : Option ZoneEnd}

/-- One end replaces another only if it is as good, and is passed over only if the other is. -/
structure Improves (replaces : ZoneEnd → Option ZoneEnd → Bool) (Good : ZoneEnd → Prop)
    (ty : ColumnType) : Prop where
  /-- The first end is taken. -/
  first : ∀ e, replaces e none = true
  /-- An end that is taken is as good as the last. -/
  take : ∀ e cur, e.HasType ty → cur.HasType ty → replaces e (some cur) = true → Good cur → Good e
  /-- An end that is not taken is no better. -/
  keep : ∀ e cur, e.HasType ty → cur.HasType ty → replaces e (some cur) = false → Good e → Good cur

theorem hasType_foldEnd (hcur : ∀ e, cur = some e → e.HasType ty)
    (ho : ∀ e, o = some e → e.HasType ty) {e : ZoneEnd} (he : foldEnd replaces cur o = some e) :
    e.HasType ty := by
  cases o with
  | none => exact hcur e he
  | some a =>
    rw [foldEnd] at he
    split_ifs at he
    · exact ho e he
    · exact hcur e he

theorem Improves.foldEnd (h : Improves replaces Good ty) (hcur : ∀ e, cur = some e → e.HasType ty)
    (ho : ∀ e, o = some e → e.HasType ty) {e : ZoneEnd} (he : cur = some e ∨ o = some e)
    (hgood : Good e) : ∃ r, SteleDb.foldEnd replaces cur o = some r ∧ Good r := by
  cases o with
  | none =>
    obtain rfl : cur = some e := he.resolve_right nofun
    exact ⟨e, rfl, hgood⟩
  | some a =>
    cases cur with
    | none =>
      obtain rfl : a = e := by simpa using he
      exact ⟨a, by rw [SteleDb.foldEnd, if_pos (h.first a)], hgood⟩
    | some c =>
      by_cases hr : replaces a (some c) = true
      · refine ⟨a, by rw [SteleDb.foldEnd, if_pos hr], ?_⟩
        rcases he with he | he
        · exact h.take a c (ho a rfl) (hcur c rfl) hr (Option.some.inj he ▸ hgood)
        · exact Option.some.inj he ▸ hgood
      · refine ⟨c, by rw [SteleDb.foldEnd, if_neg hr], ?_⟩
        rcases he with he | he
        · exact Option.some.inj he ▸ hgood
        · exact h.keep a c (ho a rfl) (hcur c rfl) (by simpa using hr) (Option.some.inj he ▸ hgood)

/-- The end of a fold is as good as each end that it has seen. -/
theorem Improves.foldl (h : Improves replaces Good ty) {l : List (Option ZoneEnd)}
    (hl : ∀ e, some e ∈ l → e.HasType ty) (hcur : ∀ e, cur = some e → e.HasType ty) {e : ZoneEnd}
    (he : cur = some e ∨ some e ∈ l) (hgood : Good e) :
    ∃ r, l.foldl (SteleDb.foldEnd replaces) cur = some r ∧ Good r := by
  induction l generalizing cur e with
  | nil => exact ⟨e, he.resolve_right List.not_mem_nil, hgood⟩
  | cons o l ih =>
    have hrest : ∀ e, some e ∈ l → e.HasType ty := fun e he => hl e (List.mem_cons_of_mem _ he)
    have ho : ∀ e, o = some e → e.HasType ty := fun e he => hl e (he ▸ List.mem_cons_self)
    have hstep : ∀ e, SteleDb.foldEnd replaces cur o = some e → e.HasType ty :=
      fun e he => hasType_foldEnd hcur ho he
    by_cases hlater : some e ∈ l
    · exact ih hrest hstep (.inr hlater) hgood
    · have hnow : cur = some e ∨ o = some e :=
        he.imp id fun hmem => ((List.mem_cons.1 hmem).resolve_right hlater).symm
      obtain ⟨r, hr, hrg⟩ := h.foldEnd hcur ho hnow hgood
      exact ih hrest hstep (.inl hr) hrg

end FoldEnd

/-- The ends of a chunk lie on both sides of the value. -/
structure ColumnChunkMeta.Bounds (c : ColumnChunkMeta) (x : ZoneBound) : Prop where
  /-- The lower end. -/
  least : ∃ e, c.statMin = some e ∧ e.AtMost x
  /-- The upper end. -/
  greatest : ∃ e, c.statMax = some e ∧ e.AtLeast x

/-- The ends of a chunk have the layout of its column. -/
structure ColumnChunkMeta.Typed (c : ColumnChunkMeta) : Prop where
  /-- The lower end. -/
  least : ∀ e, c.statMin = some e → e.HasType c.columnId.ty
  /-- The upper end. -/
  greatest : ∀ e, c.statMax = some e → e.HasType c.columnId.ty

section Join

variable {metas : List ColumnChunkMeta} {c : ColumnChunkMeta} {x : ZoneBound}

theorem hasType_of_mem_chunks {f : ColumnChunkMeta → Option ZoneEnd} {col : ColumnId}
    (hmetas : ∀ c ∈ metas, ∀ e, f c = some e → e.HasType c.columnId.ty) {e : ZoneEnd}
    (he : some e ∈ (metas.filter fun c => c.columnId = col).map f) : e.HasType col.ty := by
  obtain ⟨c, hc, hce⟩ := List.mem_map.1 he
  obtain ⟨hmem, hcol⟩ := List.mem_filter.1 hc
  rw [← of_decide_eq_true hcol]
  exact hmetas c hmem e hce

theorem improves_endIsSmaller (x : ZoneBound) (ty : ColumnType) :
    Improves endIsSmaller (fun e => e.AtMost x) ty where
  first _ := rfl
  take e cur het hct hrep hgood := by
    cases e with
    | unbounded => exact fun b hb => nomatch hb
    | value v =>
      cases cur with
      | unbounded => cases hrep
      | value k =>
        intro b hb
        cases hb
        have hty : v.ty = k.ty := (het v rfl).trans (hct k rfl).symm
        exact (ZoneBound.le_of_isBelow hty hrep).trans (hgood k rfl)
  keep e cur het hct hrep hgood := by
    cases cur with
    | unbounded => exact fun b hb => nomatch hb
    | value k =>
      cases e with
      | unbounded => cases hrep
      | value v =>
        intro b hb
        cases hb
        have hty : v.ty = k.ty := (het v rfl).trans (hct k rfl).symm
        exact (ZoneBound.le_of_not_isBelow hty hrep).trans (hgood v rfl)

theorem improves_endIsLarger (x : ZoneBound) (ty : ColumnType) :
    Improves endIsLarger (fun e => e.AtLeast x) ty where
  first _ := rfl
  take e cur het hct hrep hgood := by
    cases e with
    | unbounded => exact fun b hb => nomatch hb
    | value v =>
      cases cur with
      | unbounded => cases hrep
      | value k =>
        intro b hb
        cases hb
        have hty : v.ty = k.ty := (het v rfl).trans (hct k rfl).symm
        exact (hgood k rfl).trans (ZoneBound.le_of_isAbove hty hrep)
  keep e cur het hct hrep hgood := by
    cases cur with
    | unbounded => exact fun b hb => nomatch hb
    | value k =>
      cases e with
      | unbounded => cases hrep
      | value v =>
        intro b hb
        cases hb
        have hty : v.ty = k.ty := (het v rfl).trans (hct k rfl).symm
        exact (hgood v rfl).trans (ZoneBound.le_of_not_isAbove hty hrep)

/-- A fold over the chunks of a column is as good as the end of each of them. -/
theorem Improves.chunks {replaces : ZoneEnd → Option ZoneEnd → Bool} {Good : ZoneEnd → Prop}
    (h : Improves replaces Good c.columnId.ty) {f : ColumnChunkMeta → Option ZoneEnd}
    (hmetas : ∀ c ∈ metas, ∀ e, f c = some e → e.HasType c.columnId.ty) (hc : c ∈ metas)
    (hb : ∃ e, f c = some e ∧ Good e) {r : ZoneEnd}
    (hr : ((metas.filter fun d => d.columnId = c.columnId).map f).foldl (SteleDb.foldEnd replaces)
      none = some r) : Good r := by
  obtain ⟨e, he, hgood⟩ := hb
  have hmem : some e ∈ (metas.filter fun d => d.columnId = c.columnId).map f :=
    List.mem_map.2 ⟨c, List.mem_filter.2 ⟨hc, decide_eq_true rfl⟩, he⟩
  have hstart : ∀ e, (none : Option ZoneEnd) = some e → e.HasType c.columnId.ty := nofun
  obtain ⟨r', hr', hgood'⟩ := h.foldl (fun e he => hasType_of_mem_chunks hmetas he) hstart
    (.inr hmem) hgood
  rw [hr] at hr'
  exact Option.some.inj hr' ▸ hgood'

/-- The joined bounds of a column cover what one of its chunks bounds. -/
theorem covers_zoneMapFromMetas (hmetas : ∀ c ∈ metas, c.Typed) (hc : c ∈ metas) (hb : c.Bounds x)
    {zone : ColumnZone} (hz : (zoneMapFromMetas metas).column c.columnId = some zone) :
    zone.Covers x := by
  obtain ⟨⟨col, zone'⟩, hfind, rfl⟩ := Option.map_eq_some_iff.1 hz
  have hcol : col = c.columnId := by simpa using List.find?_some hfind
  have hmem := List.mem_of_find?_eq_some hfind
  simp only [zoneMapFromMetas, StatMap.fromBounds, List.mem_mergeSort, List.mem_filterMap,
    List.mem_map] at hmem
  obtain ⟨-, ⟨col', -, rfl⟩, hends⟩ := hmem
  split at hends
  · rename_i least greatest hleast hgreatest
    cases hends
    subst hcol
    exact ⟨(improves_endIsSmaller x _).chunks (fun c hc => (hmetas c hc).least) hc hb.least hleast,
      (improves_endIsLarger x _).chunks (fun c hc => (hmetas c hc).greatest) hc hb.greatest
        hgreatest⟩
  · cases hends

end Join

/-! ### What the writer records -/

/-- What the types of the fields promise: instants are `i64`s, the transaction a `u64`. -/
def Version.FitsColumns (v : Version) : Prop :=
  FitsI64 v.sysFrom ∧ v.provenance.txnId < 2 ^ 64 ∧ FitsI64 v.provenance.committedAt

instance (v : Version) : Decidable v.FitsColumns := inferInstanceAs (Decidable (_ ∧ _ ∧ _))

theorem lt_of_byteSucc {a b : Fin 256} (h : byteSucc a = some b) : a < b := by
  rw [byteSucc] at h
  split_ifs at h with hlt
  cases h
  exact Fin.lt_def.2 (Nat.lt_succ_self _)

theorem boundedMinPrefix_le (b : Bytes) : boundedMinPrefix b ≤ b := take_le _ b

theorem le_boundedMaxPrefix {b : Bytes} (h : boundedMaxPrefix b ≠ []) : b ≤ boundedMaxPrefix b := by
  rw [boundedMaxPrefix] at h ⊢
  split_ifs at h ⊢
  · exact le_rfl
  · -- what is cut off does not count: the rounded prefix is above every extension
    have hlt := lt_roundUp (fun _ _ => lt_of_byteSucc) h (b.drop maxBytesStatPrefixLen)
    rw [List.take_append_drop] at hlt
    exact hlt.le

/-- What the reader makes of an end that the writer records. -/
def StatBound.toEnd (ty : ColumnType) : StatBound → Option ZoneEnd
  | .absent => none
  | .unbounded => some .unbounded
  | .value b => some (.value (match ty with
    | .i64 => .i64 (i64OfLeBytes b)
    | .bytes => .bytes b))

/-- An end that the reader accepts in a column of this layout. -/
def StatBound.Accepted (ty : ColumnType) : StatBound → Prop
  | .absent => True
  | .unbounded => ty = .bytes
  | .value b => b ≠ [] ∧ (ty = .i64 → b.length = 8)

theorem StatBound.decodeStat {col : ColumnId} {s : StatBound} (h : s.Accepted col.ty) :
    SteleDb.decodeStat col s.bytes (decide (s = .unbounded)) = .ok (s.toEnd col.ty) := by
  cases s with
  | absent => rfl
  | unbounded =>
    have hty : col.ty = .bytes := h
    simp [SteleDb.decodeStat, StatBound.bytes, StatBound.toEnd, hty]
  | value b =>
    obtain ⟨hne, hlen⟩ := h
    cases hty : col.ty with
    | i64 => simp [SteleDb.decodeStat, StatBound.bytes, StatBound.toEnd, hne, hty, hlen hty]
    | bytes => simp [SteleDb.decodeStat, StatBound.bytes, StatBound.toEnd, hne, hty]

theorem StatBound.hasType_toEnd {ty : ColumnType} {s : StatBound} {e : ZoneEnd}
    (h : s.toEnd ty = some e) : e.HasType ty := by
  intro b hb
  subst hb
  cases s with
  | absent => cases h
  | unbounded => cases h
  | value bytes => cases ty <;> cases h <;> rfl

/-- The ends of a column with these values. -/
structure StatsOf (ty : ColumnType) (values : ZoneBound → Prop) (stats : StatBound × StatBound) :
    Prop where
  /-- The reader accepts the lower end, -/
  accepted₁ : stats.1.Accepted ty
  /-- and the upper end. -/
  accepted₂ : stats.2.Accepted ty
  /-- The lower end is at or below each value, -/
  least : ∀ x, values x → ∃ e, stats.1.toEnd ty = some e ∧ e.AtMost x
  /-- the upper end at or above. -/
  greatest : ∀ x, values x → ∃ e, stats.2.toEnd ty = some e ∧ e.AtLeast x

/-- **A chunk is read back with bounds of its values.** -/
theorem StatsOf.decode {col : ColumnId} {values : ZoneBound → Prop} {stats : StatBound × StatBound}
    (h : StatsOf col.ty values stats) :
    ∃ c, (FooterEntry.of col stats).decode = .ok c ∧ c.columnId = col ∧ c.Typed ∧
      ∀ x, values x → c.Bounds x := by
  refine ⟨⟨col, stats.1.toEnd col.ty, stats.2.toEnd col.ty⟩, ?_, rfl,
    ⟨fun e => StatBound.hasType_toEnd, fun e => StatBound.hasType_toEnd⟩,
    fun x hx => ⟨h.least x hx, h.greatest x hx⟩⟩
  simp only [FooterEntry.decode, FooterEntry.of, StatBound.decodeStat h.accepted₁,
    StatBound.decodeStat h.accepted₂]
  rfl

theorem accepted_boundOrUnbounded (b : Bytes) : (boundOrUnbounded b).Accepted .bytes := by
  rw [boundOrUnbounded]
  split_ifs with h
  · rfl
  · exact ⟨h, fun h => nomatch h⟩

theorem accepted_i64 (x : ℤ) : (StatBound.value (i64ToLeBytes x)).Accepted .i64 := by
  have hlen : (i64ToLeBytes x).length = 8 := length_leBytes ..
  refine ⟨fun h => ?_, fun _ => hlen⟩
  rw [h] at hlen
  cases hlen

theorem statsOf_i64 {values : List ℤ} (hfits : ∀ x ∈ values, FitsI64 x) :
    StatsOf .i64 (fun x => ∃ n ∈ values, x = .i64 n) (encodeI64Values values) := by
  cases hmin : values.min? with
  | none =>
    have hnil : values = [] := List.min?_eq_none_iff.1 hmin
    subst hnil
    exact ⟨trivial, trivial, fun x ⟨n, hn, _⟩ => absurd hn List.not_mem_nil,
      fun x ⟨n, hn, _⟩ => absurd hn List.not_mem_nil⟩
  | some lo =>
    obtain ⟨hlo, hlole⟩ := List.min?_eq_some_iff.1 hmin
    cases hmax : values.max? with
    | none =>
      rw [List.max?_eq_none_iff.1 hmax] at hlo
      cases hlo
    | some hi =>
      obtain ⟨hhi, hhile⟩ := List.max?_eq_some_iff.1 hmax
      have hread : ∀ x ∈ values, i64OfLeBytes (i64ToLeBytes x) = x := fun x hx =>
        i64OfLeBytes_i64ToLeBytes (hfits x hx).1 (hfits x hx).2
      simp only [encodeI64Values, hmin, hmax, Option.elim_some]
      refine ⟨accepted_i64 lo, accepted_i64 hi, ?_, ?_⟩
      · rintro x ⟨n, hn, rfl⟩
        refine ⟨_, rfl, fun b hb => ?_⟩
        cases hb
        rw [hread lo hlo]
        exact hlole n hn
      · rintro x ⟨n, hn, rfl⟩
        refine ⟨_, rfl, fun b hb => ?_⟩
        cases hb
        rw [hread hi hhi]
        exact hhile n hn

/-- The end that is recorded for a byte string, as the reader sees it. -/
theorem toEnd_boundOrUnbounded (b : Bytes) :
    (boundOrUnbounded b).toEnd .bytes =
      some (if b = [] then .unbounded else .value (.bytes b)) := by
  rw [boundOrUnbounded]
  split_ifs <;> rfl

theorem statsOf_bytes {values : List (Option Bytes)} {stats : StatBound × StatBound}
    (h : encodeBytesValues values = .ok stats) :
    StatsOf .bytes (fun x => ∃ b, some b ∈ values ∧ x = .bytes b) stats := by
  rw [encodeBytesValues] at h
  split_ifs at h
  cases h
  have hmem : ∀ b, some b ∈ values ↔ b ∈ values.reduceOption := fun b =>
    List.reduceOption_mem_iff.symm
  simp only [hmem]
  generalize values.reduceOption = present
  cases hmin : present.min? with
  | none =>
    have hnil : present = [] := List.min?_eq_none_iff.1 hmin
    subst hnil
    exact ⟨trivial, trivial, fun x ⟨b, hb, _⟩ => absurd hb List.not_mem_nil,
      fun x ⟨b, hb, _⟩ => absurd hb List.not_mem_nil⟩
  | some lo =>
    obtain ⟨hlo, hlole⟩ := List.min?_eq_some_iff.1 hmin
    cases hmax : present.max? with
    | none =>
      rw [List.max?_eq_none_iff.1 hmax] at hlo
      cases hlo
    | some hi =>
      obtain ⟨hhi, hhile⟩ := List.max?_eq_some_iff.1 hmax
      simp only [Option.elim_some]
      refine ⟨accepted_boundOrUnbounded _, accepted_boundOrUnbounded _, ?_, ?_⟩
      · rintro x ⟨b, hb, rfl⟩
        refine ⟨_, toEnd_boundOrUnbounded _, fun e he => ?_⟩
        split_ifs at he
        cases he
        exact (boundedMinPrefix_le lo).trans (hlole b hb)
      · rintro x ⟨b, hb, rfl⟩
        refine ⟨_, toEnd_boundOrUnbounded _, fun e he => ?_⟩
        split_ifs at he with hempty
        cases he
        exact (hhile b hb).trans (le_boundedMaxPrefix hempty)

theorem StatsOf.mono {ty : ColumnType} {values values' : ZoneBound → Prop}
    {stats : StatBound × StatBound} (h : StatsOf ty values stats)
    (hle : ∀ x, values' x → values x) :
    StatsOf ty values' stats :=
  ⟨h.accepted₁, h.accepted₂, fun x hx => h.least x (hle x hx), fun x hx => h.greatest x (hle x hx)⟩

/-- The intervals of rows, as the writer has decoded them. -/
def PairsOf (validTime : Bool) (rows : List Version) (pairs : Option (List (ℤ × ℤ))) : Prop :=
  if validTime then ∃ ps, pairs = some ps ∧
    List.Forall₂ (fun v p => decodeValidPair v = .ok p) rows ps
  else pairs = none

theorem decodeValidPair_eq_ok {v : Version} {pair : ℤ × ℤ} :
    decodeValidPair v = .ok pair ↔ v.validPair = some pair := by
  rw [decodeValidPair, Version.validPair]
  cases v.payload with
  | none => simp
  | some stored =>
    simp only [Option.bind_some]
    cases ValidInterval.decodePrefix stored <;> simp [Except.toOption]

namespace PairsOf

variable {validTime : Bool} {rows rest : List Version} {pairs : Option (List (ℤ × ℤ))}

theorem isSome (h : PairsOf validTime rows pairs) : pairs.isSome = validTime := by
  cases validTime with
  | false => exact congrArg Option.isSome h
  | true =>
    obtain ⟨ps, rfl, -⟩ := h
    rfl

theorem take (h : PairsOf validTime (rows ++ rest) pairs) :
    PairsOf validTime rows (pairs.map (List.take rows.length)) := by
  cases validTime with
  | false =>
    obtain rfl : pairs = none := h
    rfl
  | true =>
    obtain ⟨ps, rfl, hps⟩ := h
    refine ⟨_, rfl, ?_⟩
    simpa using List.forall₂_take rows.length hps

theorem drop (h : PairsOf validTime (rows ++ rest) pairs) :
    PairsOf validTime rest (pairs.map (List.drop rows.length)) := by
  cases validTime with
  | false =>
    obtain rfl : pairs = none := h
    rfl
  | true =>
    obtain ⟨ps, rfl, hps⟩ := h
    refine ⟨_, rfl, ?_⟩
    simpa using List.forall₂_drop rows.length hps

theorem mem (h : PairsOf true rows pairs) {v : Version} (hv : v ∈ rows) {pair : ℤ × ℤ}
    (hp : v.validPair = some pair) : pair ∈ pairs.getD [] := by
  obtain ⟨ps, rfl, hps⟩ := h
  exact (mem_of_mapM_ok (mapM_eq_ok_iff_forall₂.2 hps)).2 ⟨v, hv, decodeValidPair_eq_ok.2 hp⟩

theorem fits (h : PairsOf validTime rows pairs) {pair : ℤ × ℤ} (hp : pair ∈ pairs.getD []) :
    FitsI64 pair.1 ∧ FitsI64 pair.2 := by
  cases validTime with
  | false =>
    obtain rfl : pairs = none := h
    cases hp
  | true =>
    obtain ⟨ps, rfl, hps⟩ := h
    obtain ⟨v, -, hv⟩ := (mem_of_mapM_ok (mapM_eq_ok_iff_forall₂.2 hps)).1 hp
    obtain ⟨hfrom, hto, -⟩ := Version.validPair_fits (decodeValidPair_eq_ok.1 hv)
    exact ⟨hfrom, hto⟩

end PairsOf

theorem cell_of_extractBytes {col : ColumnId} (hcol : col ∈ [.businessKey, .payload, .principal])
    {v : Version} {validTime : Bool} {o : Option Bytes}
    (h : extractBytes col v validTime = .ok o) : v.cell validTime col = o.map .bytes := by
  simp only [List.mem_cons, List.not_mem_nil, or_false] at hcol
  rcases hcol with rfl | rfl | rfl
  · cases h
    rfl
  · simp only [extractBytes] at h
    cases hp : v.payload with
    | none =>
      rw [hp] at h
      cases h
      simp [Version.cell, hp]
    | some stored =>
      rw [hp] at h
      dsimp only at h
      split_ifs at h with hvt hlen <;> cases h <;> simp [Version.cell, hp, hvt]
  · cases h
    rfl

theorem statsOf_extractBytes {col : ColumnId} (hcol : col ∈ [.businessKey, .payload, .principal])
    {rows : List Version} {validTime : Bool} {values : List (Option Bytes)}
    (hvalues : rows.mapM (fun row => extractBytes col row validTime) = .ok values)
    {stats : StatBound × StatBound} (h : encodeBytesValues values = .ok stats) :
    StatsOf .bytes (fun x => ∃ v ∈ rows, v.cell validTime col = some x) stats := by
  refine (statsOf_bytes h).mono ?_
  rintro x ⟨v, hv, hx⟩
  obtain ⟨o, ho⟩ := (mapM_eq_ok.1 hvalues).1 v hv
  rw [cell_of_extractBytes hcol ho] at hx
  obtain ⟨b, rfl, rfl⟩ := Option.map_eq_some_iff.1 hx
  exact ⟨b, (mem_of_mapM_ok hvalues).2 ⟨v, hv, ho⟩, rfl⟩

theorem statsOf_extractI64 {col : ColumnId} (hcol : col ∈ [.sysFrom, .seq, .txnId, .committedAt])
    {rows : List Version} (hfit : ∀ v ∈ rows, v.FitsColumns) (validTime : Bool) :
    StatsOf .i64 (fun x => ∃ v ∈ rows, v.cell validTime col = some x)
      (encodeI64Values (rows.map (extractI64 col))) := by
  simp only [List.mem_cons, List.not_mem_nil, or_false] at hcol
  refine (statsOf_i64 fun n hn => ?_).mono ?_
  · obtain ⟨v, hv, rfl⟩ := List.mem_map.1 hn
    obtain ⟨hsys, htxn, hat⟩ := hfit v hv
    rcases hcol with rfl | rfl | rfl | rfl
    · exact hsys
    · exact fitsI64_u64AsI64 v.seq.isLt
    · exact fitsI64_u64AsI64 htxn
    · exact hat
  · rintro x ⟨v, hv, hx⟩
    refine ⟨extractI64 col v, List.mem_map_of_mem hv, ?_⟩
    rcases hcol with rfl | rfl | rfl | rfl <;> cases hx <;> rfl

/-- **The statistics of a column bound the cells of the rows.** -/
theorem statsOf_encodeColumn {col : ColumnId} {rows : List Version}
    {pairs : Option (List (ℤ × ℤ))} {validTime : Bool} {stats : StatBound × StatBound}
    (hcol : col ∈ ColumnId.schema validTime) (hpairs : PairsOf validTime rows pairs)
    (hfit : ∀ v ∈ rows, v.FitsColumns) (h : encodeColumn col rows pairs = .ok stats) :
    StatsOf col.ty (fun x => ∃ v ∈ rows, v.cell validTime col = some x) stats := by
  have hbytes : ∀ c ∈ [ColumnId.businessKey, .payload, .principal], ∀ {stats},
      (do
        let values ← rows.mapM fun row => extractBytes c row pairs.isSome
        encodeBytesValues values) = Except.ok stats →
      StatsOf .bytes (fun x => ∃ v ∈ rows, v.cell validTime c = some x) stats := by
    intro c hc stats h
    rw [hpairs.isSome] at h
    cases hvalues : rows.mapM fun row => extractBytes c row validTime with
    | error e => rw [hvalues] at h; cases h
    | ok values =>
      rw [hvalues] at h
      exact statsOf_extractBytes hc hvalues h
  cases col with
  | businessKey => exact hbytes _ (by simp) h
  | payload => exact hbytes _ (by simp) h
  | principal => exact hbytes _ (by simp) h
  | sysFrom => cases h; exact statsOf_extractI64 (by simp) hfit validTime
  | seq => cases h; exact statsOf_extractI64 (by simp) hfit validTime
  | txnId => cases h; exact statsOf_extractI64 (by simp) hfit validTime
  | committedAt => cases h; exact statsOf_extractI64 (by simp) hfit validTime
  | validFrom =>
    cases h
    refine (statsOf_i64 fun n hn => ?_).mono ?_
    · obtain ⟨pair, hp, rfl⟩ := List.mem_map.1 hn
      exact (hpairs.fits hp).1
    · rintro x ⟨v, hv, hx⟩
      cases validTime with
      | false => cases hx
      | true =>
        obtain ⟨pair, hpair, rfl⟩ := Option.map_eq_some_iff.1 hx
        exact ⟨pair.1, List.mem_map_of_mem (hpairs.mem hv hpair), rfl⟩
  | validTo =>
    cases h
    refine (statsOf_i64 fun n hn => ?_).mono ?_
    · obtain ⟨pair, hp, rfl⟩ := List.mem_map.1 hn
      exact (hpairs.fits hp).2
    · rintro x ⟨v, hv, hx⟩
      cases validTime with
      | false => cases hx
      | true =>
        obtain ⟨pair, hpair, rfl⟩ := Option.map_eq_some_iff.1 hx
        exact ⟨pair.2, List.mem_map_of_mem (hpairs.mem hv hpair), rfl⟩
  | _ => cases validTime <;> simp [ColumnId.schema] at hcol

/-! ### From the writer to the test -/

theorem mem_schema_of_cell {v : Version} {validTime : Bool} {col : ColumnId} {x : ZoneBound}
    (h : v.cell validTime col = some x) : col ∈ ColumnId.schema validTime := by
  cases col <;> cases validTime <;> first | decide | cases h

/-- The decoded chunks of a row group. -/
structure MetasOf (validTime : Bool) (group : List Version) (metas : List ColumnChunkMeta) :
    Prop where
  /-- Each has the layout of its column. -/
  typed : ∀ c ∈ metas, c.Typed
  /-- Each cell of a row lies between the ends of a chunk of its column. -/
  bounds : ∀ v ∈ group, ∀ col x, v.cell validTime col = some x →
    ∃ c ∈ metas, c.columnId = col ∧ c.Bounds x

/-- Joined bounds cover a row if they take its chunks into account. -/
theorem MetasOf.coversRow {validTime : Bool} {group : List Version}
    {metas all : List ColumnChunkMeta} (h : MetasOf validTime group metas)
    (hsub : ∀ c ∈ metas, c ∈ all) (hall : ∀ c ∈ all, c.Typed) {v : Version} (hv : v ∈ group) :
    (zoneMapFromMetas all).CoversRow (v.cell validTime) := by
  intro col zone x hz hx
  obtain ⟨c, hc, rfl, hb⟩ := h.bounds v hv col x hx
  exact covers_zoneMapFromMetas hall (hsub c hc) hb hz

namespace SegmentWriter

variable {w : SegmentWriter}

theorem decode_encodeGroup {group : List Version} {pairs : Option (List (ℤ × ℤ))}
    {entries : List FooterEntry} (hpairs : PairsOf w.validTime group pairs)
    (hfit : ∀ v ∈ group, v.FitsColumns) (h : w.encodeGroup group pairs = .ok entries) :
    ∃ metas, entries.mapM FooterEntry.decode = .ok metas ∧ MetasOf w.validTime group metas := by
  rw [encodeGroup] at h
  split_ifs at h
  -- every entry is that of a column, and reads back
  have hentry : ∀ e, e ∈ entries ↔ ∃ col ∈ ColumnId.schema w.validTime, ∃ stats,
      encodeColumn col group pairs = .ok stats ∧ FooterEntry.of col stats = e := by
    intro e
    rw [mem_of_mapM_ok h]
    refine exists_congr fun col => and_congr_right fun _ => ?_
    cases encodeColumn col group pairs <;> simp [Functor.map, Except.map]
  have hdec : ∀ col ∈ ColumnId.schema w.validTime, ∀ stats,
      encodeColumn col group pairs = .ok stats → ∃ c, (FooterEntry.of col stats).decode = .ok c ∧
        c.columnId = col ∧ c.Typed ∧
        ∀ x, (∃ v ∈ group, v.cell w.validTime col = some x) → c.Bounds x :=
    fun col hcol stats hs => (statsOf_encodeColumn hcol hpairs hfit hs).decode
  refine ⟨_, mapM_eq_ok.2 ⟨fun e he => ?_, rfl⟩, ?_⟩
  · obtain ⟨col, hcol, stats, hs, rfl⟩ := (hentry e).1 he
    obtain ⟨c, hc, -⟩ := hdec col hcol stats hs
    exact ⟨c, hc⟩
  · have hmem : ∀ c, c ∈ entries.filterMap (fun e => e.decode.toOption) ↔
        ∃ e ∈ entries, e.decode = .ok c := by
      intro c
      rw [List.mem_filterMap]
      refine exists_congr fun e => and_congr_right fun _ => ?_
      cases e.decode <;> simp [Except.toOption]
    constructor
    · intro c hc
      obtain ⟨e, he, hce⟩ := (hmem c).1 hc
      obtain ⟨col, hcol, stats, hs, rfl⟩ := (hentry e).1 he
      obtain ⟨c', hc', -, ht, -⟩ := hdec col hcol stats hs
      rw [hce] at hc'
      cases hc'
      exact ht
    · intro v hv col x hx
      have hcol := mem_schema_of_cell hx
      obtain ⟨e, he⟩ := (mapM_eq_ok.1 h).1 col hcol
      cases hs : encodeColumn col group pairs with
      | error err => rw [hs] at he; cases he
      | ok stats =>
        obtain ⟨c, hc, hcid, -, hb⟩ := hdec col hcol stats hs
        exact ⟨c, (hmem c).2 ⟨_, (hentry _).2 ⟨col, hcol, stats, hs, rfl⟩, hc⟩, hcid,
          hb x ⟨v, hv, hx⟩⟩

theorem decode_encodeGroups {groups : List (List Version)} {pairs : Option (List (ℤ × ℤ))}
    {entries : List (List FooterEntry)} (hpairs : PairsOf w.validTime groups.flatten pairs)
    (hfit : ∀ v ∈ groups.flatten, v.FitsColumns) (h : w.encodeGroups groups pairs = .ok entries) :
    ∃ metas, entries.mapM (fun es => es.mapM FooterEntry.decode) = .ok metas ∧
      List.Forall₂ (MetasOf w.validTime) groups metas := by
  induction groups generalizing pairs entries with
  | nil =>
    cases h
    exact ⟨[], rfl, .nil⟩
  | cons group rest ih =>
    rw [List.flatten_cons] at hpairs hfit
    rw [encodeGroups] at h
    cases hg : w.encodeGroup group (pairs.map (List.take group.length)) with
    | error e => rw [hg] at h; cases h
    | ok es =>
      cases hr : w.encodeGroups rest (pairs.map (List.drop group.length)) with
      | error e => rw [hg, hr] at h; cases h
      | ok ess =>
        rw [hg, hr] at h
        cases h
        obtain ⟨metas, hm, hmetas⟩ := decode_encodeGroup hpairs.take
          (fun v hv => hfit v (List.mem_append_left _ hv)) hg
        obtain ⟨more, hms, hmore⟩ := ih hpairs.drop
          (fun v hv => hfit v (List.mem_append_right _ hv)) hr
        refine ⟨metas :: more, ?_, .cons hmetas hmore⟩
        rw [List.mapM_cons, hm, hms]
        rfl

end SegmentWriter

theorem accepted_encodeI64Values (values : List ℤ) :
    (encodeI64Values values).1.Accepted .i64 ∧ (encodeI64Values values).2.Accepted .i64 := by
  rw [encodeI64Values]
  cases values.min? <;> cases values.max? <;>
    exact ⟨by first | trivial | exact accepted_i64 _, by first | trivial | exact accepted_i64 _⟩

theorem statsOf_encodeRetractionColumn {col : ColumnId} (hcol : col ∈ ColumnId.retraction)
    {closes : List Close} {stats : StatBound × StatBound}
    (h : encodeRetractionColumn col closes = .ok stats) :
      StatsOf col.ty (fun _ => False) stats := by
  have hi64 : ∀ values : List ℤ, StatsOf .i64 (fun _ => False) (encodeI64Values values) :=
    fun values =>
    ⟨(accepted_encodeI64Values values).1, (accepted_encodeI64Values values).2, nofun, nofun⟩
  cases col with
  | retractKey => exact (statsOf_bytes h).mono nofun
  | retractClosedByPrincipal => exact (statsOf_bytes h).mono nofun
  | retractSysFrom => cases h; exact hi64 _
  | retractSeq => cases h; exact hi64 _
  | retractClosedAt => cases h; exact hi64 _
  | retractClosedByTxn => cases h; exact hi64 _
  | retractClosedByCommittedAt => cases h; exact hi64 _
  | _ => simp [ColumnId.retraction] at hcol

namespace SegmentWriter

variable {w : SegmentWriter}

theorem flatten_groups (w : SegmentWriter) : w.groups.flatten = w.rows := by
  rw [groups]
  split
  · simp
  · exact flatten_rowGroupsOf _ _

theorem pairsOf_validPairs {pairs : Option (List (ℤ × ℤ))} (h : w.validPairs = .ok pairs) :
    PairsOf w.validTime w.rows pairs := by
  rw [validPairs] at h
  rw [PairsOf]
  split_ifs at h ⊢
  · cases hm : w.rows.mapM decodeValidPair with
    | error e => rw [hm] at h; cases h
    | ok ps =>
      rw [hm] at h
      cases h
      exact ⟨ps, rfl, mapM_eq_ok_iff_forall₂.1 hm⟩
  · cases h
    rfl

/-- The retraction section is read back. -/
theorem decode_encodeRetractions {entries : List FooterEntry}
    (h : w.encodeRetractions = .ok entries) :
    ∃ metas, entries.mapM FooterEntry.decode = .ok metas ∧ ∀ c ∈ metas, c.Typed := by
  rw [encodeRetractions] at h
  split_ifs at h
  · cases h
    exact ⟨[], rfl, fun c hc => nomatch hc⟩
  · have hdec : ∀ e ∈ entries, ∃ c, e.decode = .ok c ∧ c.Typed := by
      intro e he
      obtain ⟨col, hcol, hs⟩ := (mem_of_mapM_ok h).1 he
      cases hr : encodeRetractionColumn col w.retractions with
      | error err => rw [hr] at hs; cases hs
      | ok stats =>
        rw [hr] at hs
        cases hs
        obtain ⟨c, hc, -, ht, -⟩ := (statsOf_encodeRetractionColumn hcol hr).decode
        exact ⟨c, hc, ht⟩
    have hok : entries.mapM FooterEntry.decode =
        .ok (entries.filterMap fun e => e.decode.toOption) :=
      mapM_eq_ok.2 ⟨fun e he => (hdec e he).imp fun _ h => h.1, rfl⟩
    refine ⟨_, hok, fun c hc => ?_⟩
    obtain ⟨e, he, hce⟩ := (mem_of_mapM_ok hok).1 hc
    obtain ⟨c', hc', ht⟩ := hdec e he
    rw [hce] at hc'
    cases hc'
    exact ht

/-- What a sealed segment is read back as. -/
theorem open_finish (hfit : ∀ v ∈ w.rows, v.FitsColumns) {f : SegmentFooter}
    (h : w.finish = .ok f) :
    ∃ metas retractions, f.open = .ok ⟨zoneMapFromMetas (metas.flatten ++ retractions),
      metas.map zoneMapFromMetas⟩ ∧
      List.Forall₂ (MetasOf w.validTime) w.groups metas ∧ ∀ c ∈ retractions, c.Typed := by
  rw [finish] at h
  cases hp : w.validPairs with
  | error e => rw [hp] at h; cases h
  | ok pairs =>
    cases hg : w.encodeGroups w.groups pairs with
    | error e => simp only [bind, Except.bind, hp, hg] at h; cases h
    | ok entries =>
      cases hr : w.encodeRetractions with
      | error e => simp only [bind, Except.bind, hp, hg, hr] at h; cases h
      | ok rs =>
        simp only [bind, Except.bind, hp, hg, hr] at h
        cases h
        have hpairs : PairsOf w.validTime w.groups.flatten pairs :=
          w.flatten_groups.symm ▸ pairsOf_validPairs hp
        obtain ⟨metas, hm, hmetas⟩ := decode_encodeGroups hpairs
          (fun v hv => hfit v (w.flatten_groups ▸ hv)) hg
        obtain ⟨retractions, hrm, hrt⟩ := decode_encodeRetractions hr
        refine ⟨metas, retractions, ?_, hmetas, hrt⟩
        simp only [SegmentFooter.open, hm, hrm]
        rfl

/-- **Pruning never loses a row.**  A sealed segment opens, with statistics for each row group.  A
stored row that has begun by the snapshot and satisfies the predicate is ruled out neither by the
statistics of its row group nor by those of the segment. -/
theorem mightContain_of_satisfies (w : SegmentWriter) (hfit : ∀ v ∈ w.rows, v.FitsColumns)
    {f : SegmentFooter} (h : w.finish = .ok f) :
    w.groups.flatten = w.rows ∧ ∃ stats, f.open = .ok stats ∧
      List.Forall₂ (fun group zoneMap => ∀ v ∈ group, ∀ (snapshot : SystemTimeMicros) p,
        v.sysFrom ≤ snapshot → StatPredicate.Holds (v.cell w.validTime) p →
          zoneMap.mightContain p snapshot = true ∧ stats.zoneMap.mightContain p snapshot = true)
        w.groups stats.rowGroupZoneMaps := by
  refine ⟨w.flatten_groups, ?_⟩
  obtain ⟨metas, retractions, hopen, hmetas, hr⟩ := open_finish hfit h
  refine ⟨_, hopen, ?_⟩
  have htyped : ∀ c ∈ metas.flatten ++ retractions, c.Typed := by
    intro c hc
    rcases List.mem_append.1 hc with hc | hc
    · obtain ⟨m, hm, hcm⟩ := List.mem_flatten.1 hc
      obtain ⟨group, -, hg⟩ := exists_left_of_forall₂ hmetas hm
      exact hg.typed c hcm
    · exact hr c hc
  have hzip :
      List.Forall₂ (fun group m => MetasOf w.validTime group m ∧ m ∈ metas) w.groups metas :=
    List.forall₂_iff_zip.2 ⟨hmetas.length_eq, fun hz =>
      ⟨List.forall₂_zip hmetas hz, (List.of_mem_zip hz).2⟩⟩
  rw [List.forall₂_map_right_iff]
  refine hzip.imp fun group m ⟨hg, hm⟩ v hv snapshot p hs hp => ?_
  have hsub : ∀ c ∈ m, c ∈ metas.flatten ++ retractions := fun c hc =>
    List.mem_append_left _ (List.mem_flatten.2 ⟨m, hm, hc⟩)
  exact ⟨(hg.coversRow (fun c hc => hc) hg.typed hv).mightContain rfl hs hp,
    (hg.coversRow hsub htyped hv).mightContain rfl hs hp⟩

/-- Two rows in two row groups.  The key of the second is longer than a recorded bound, and has no
upper bound of that length. -/
def longKeys : SegmentWriter where
  rows := [.mkOpen [1] 10 0 ⟨1, 10, [7]⟩ (some [5]),
    .mkOpen (List.replicate 70 255) 20 1 ⟨2, 20, [7]⟩ none]
  validTime := false
  maxRowGroupRows := some 1

theorem mightContain_longKeys : ∃ f, longKeys.finish = .ok f ∧ ∃ stats, f.open = .ok stats ∧
    stats.zoneMap.mightContain
      (.and [.eq .businessKey (.bytes (List.replicate 70 255)), .range .seq (.i64 0) (.i64 1)]) 20 =
      true := by
  have hok : longKeys.finish.toOption.isSome = true := by decide
  cases h : longKeys.finish with
  | error e => rw [h] at hok; cases hok
  | ok f =>
    obtain ⟨-, stats, hopen, hrows⟩ := mightContain_of_satisfies longKeys (by decide) h
    refine ⟨f, rfl, stats, hopen, ?_⟩
    have hgroups : longKeys.groups = longKeys.rows.map fun v => [v] := by decide
    rw [hgroups] at hrows
    obtain ⟨z, zs, -, hrest, -⟩ := List.forall₂_cons_left_iff.1 hrows
    obtain ⟨z', zs', hlast, -, -⟩ := List.forall₂_cons_left_iff.1 hrest
    have hseq : StatPredicate.Holds ((Version.mkOpen (List.replicate 70 255) 20 1 ⟨2, 20, [7]⟩
        none).cell false) (.range .seq (.i64 0) (.i64 1)) :=
      ⟨.i64 1, rfl, (by decide : (0 : ℤ) ≤ 1), (le_rfl : (1 : ℤ) ≤ 1)⟩
    have hkey : StatPredicate.Holds ((Version.mkOpen (List.replicate 70 255) 20 1 ⟨2, 20, [7]⟩
        none).cell false) (.eq .businessKey (.bytes (List.replicate 70 255))) := rfl
    exact (hlast _ List.mem_cons_self 20 (.and [_, _]) le_rfl (And.intro hkey ⟨hseq, trivial⟩)).2

end SegmentWriter

end SteleDb
