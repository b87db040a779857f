import SteleDb.Exec.HashJoin
import SteleDb.Exec.RowFilter
import SteleDb.Exec.SnapshotScan
import SteleDb.Session.Engine
import SteleDb.Storage.EngineRun

/-!
# Joins over time

A chain of joins over base tables is read either at a point, every input pinned to the same system
and valid instant, or over a range of one of the axes.  The point read scans every input, joins
left-deep by key and filters.  The range read scans every version of each input that meets the
range, carries its interval along, and at each step combines the intervals of the rows with equal
keys: an `INNER` join takes the common part, the other joins also what the partners leave of the
interval of the left row.

* `slice_rangeStep` : one step of the range read is, at every instant, the step of the point read;
* `runJoinRange_slice` : **the range read is snapshot reducible**, through any chain of steps.

Rows are kept row by row where the source gathers columns.  Aggregates, projection and ordering come
after the rows modelled here, inputs that are not base tables and the writes of an open transaction
are left out.  A `WHERE` predicate is the positions it reads and what it computes from the values
there; it is evaluated row by row, the source evaluates it column by column.
-/

namespace SteleDb

open Intervals RowFilter

/-! ### Data -/

/-- A column header: names and types. -/
abbrev Header := List (Name × LogicalType)

/-- An input of a join: a base table and its columns, the key first. -/
structure BoundJoinSide where
  /-- The table. -/
  table : Name
  /-- Its columns. -/
  columns : Header
  deriving DecidableEq, Repr

/-- One step of a chain of joins. -/
structure BoundJoinStep where
  /-- Which join. -/
  joinType : JoinType
  /-- The input that is joined on. -/
  right : BoundJoinSide
  /-- Position of the key among the columns so far. -/
  leftKey : ℕ
  /-- Position of the key among the columns of the input. -/
  rightKey : ℕ
  deriving DecidableEq, Repr

/-- A left-deep chain of joins. -/
structure BoundJoin where
  /-- The leftmost input. -/
  left : BoundJoinSide
  /-- The steps. -/
  steps : List BoundJoinStep
  deriving DecidableEq, Repr

/-- The columns after a step. -/
def BoundJoinStep.header (header : Header) (step : BoundJoinStep) : Header :=
  if step.joinType.keepsRight then header ++ step.right.columns else header

/-- The columns of the join. -/
def BoundJoin.header (join : BoundJoin) : Header :=
  join.steps.foldl BoundJoinStep.header join.left.columns

/-- The inputs of the join. -/
def BoundJoin.sides (join : BoundJoin) : List BoundJoinSide :=
  join.left :: join.steps.map BoundJoinStep.right

/-- Which axis a range read ranges over. -/
inductive RangeAxis where
  /-- The system axis. -/
  | system (range : TimeRange)
  /-- The valid axis, every input read at the statement's snapshot. -/
  | valid (range : TimeRange)
  deriving DecidableEq, Repr

/-- The end of a valid-time interval that is still open. -/
def validTimeOpen : ValidTimeMicros := i64Max

namespace RangeAxis

/-- The range. -/
def overlapWindow : RangeAxis → TimeRange
  | .system r => r
  | .valid r => r

/-- The end of an interval that is still open. -/
def openSentinel : RangeAxis → ℤ
  | .system _ => systemTimeOpen
  | .valid _ => validTimeOpen

/-- The pins of the point read at an instant of the axis. -/
def asOf (axis : RangeAxis) (snapshot : SystemTimeMicros) (t : ℤ) :
    SystemTimeMicros × Option ValidTimeMicros :=
  match axis with
  | .system _ => (t, none)
  | .valid _ => (snapshot, some t)

end RangeAxis

/-- A `WHERE` predicate: the positions it reads, and what it computes from the values there. -/
structure RowPredicate where
  /-- The positions. -/
  columns : List ℕ
  /-- Its value on a row. -/
  eval : List (Option ScalarValue) → Except ExprError (Option Bool)

/-- The predicate reads only positions below `n`. -/
def FilterPlan.Below (n : ℕ) : FilterPlan RowPredicate → Prop
  | .empty => True
  | .keepAll => True
  | .predicate p => ∀ i ∈ p.columns, i < n

/-- Errors of a join. -/
inductive JoinError where
  /-- The table is not live. -/
  | unknownTable (table : Name)
  /-- From a scan or an expression. -/
  | scan (e : ScanError)
  deriving DecidableEq, Repr

/-! ### Cells -/

/-- The value at a position of a row. -/
def cellValue (header : Header) (row : Cells) (i : ℕ) : Except ExprError (Option ScalarValue) :=
  match header[i]? with
  | none => .error (.columnOutOfRange i header.length)
  | some column =>
    if column.2 = .float8 then .error (.unsupportedColumn column.2 "bytes")
    else decodeCell column.2 (cell i row)

/-- A row passes if the predicate is true on it. -/
def RowPredicate.passes (p : RowPredicate) (header : Header) (row : Cells) :
    Except ExprError Bool := do
  let values ← p.columns.mapM (cellValue header row)
  let keep ← p.eval values
  .ok (keep = some true)

/-- The rows that the predicate passes; `render` gives the cells of a row. -/
def RowPredicate.passing {β : Type*} (header : Header) (render : β → Cells) (p : RowPredicate)
    (rows : List β) : Except JoinError (List β) :=
  match rows.mapM fun e => p.passes header (render e) with
  | .error e => .error (.scan (.eval e))
  | .ok mask => .ok ((rows.zip mask).filterMap fun e => if e.2 then some e.1 else none)

/-- The rows that pass the `WHERE` clause. -/
def filterRows {β : Type*} (plan : FilterPlan RowPredicate) (header : Header) (render : β → Cells)
    (rows : List β) : Except JoinError (List β) :=
  plan.filterRows (RowPredicate.passing header render) rows

/-- The join keys of rows, in their canonical encoding. -/
def keyColumn (header : Header) (key : ℕ) (rows : List Cells) :
    Except JoinError (List (Option Bytes)) :=
  match header[key]? with
  | none => .error (.scan (.eval (.columnOutOfRange key header.length)))
  | some column =>
    match decodeCells column.2 (rows.map (cell key)) with
    | .error e => .error (.scan (.eval e))
    | .ok values => .ok (values.map (Option.map ScalarValue.encode))

/-- The cells of a version: its key, then its payload cut into cells. -/
def reconstruct (valueCount : ℕ) (v : Version) : Except JoinError Cells :=
  match decodePayload valueCount v.payload with
  | .error e => .error (.scan (.rowCodec e))
  | .ok cells => .ok (some v.businessKey :: cells)

/-! ### Inputs -/

namespace TableState

/-- Open the live segments. -/
def openSegmentReaders (st : TableState) (groupRows : ℕ) : Except ScanError (List SegmentReader) :=
  st.engine.liveSegments.mapM fun i =>
    match st.engine.segments[i]?.bind fun s => s.open st.validTime groupRows with
    | some r => .ok r
    | none => .error .segment

/-- A scan of the table with no pin on the valid axis. -/
def scanAt (st : TableState) (readers : List SegmentReader) (snapshot : SystemTimeMicros) :
    SnapshotScan :=
  { delta := st.engine.tiers.delta, index := st.engine.tiers.index, segments := readers,
    snapshot, validTime := st.validTime }

/-- The versions of a point read: those at a snapshot, of these the ones valid at a pin if there is
one.  What the scan may skip for the window is skipped. -/
def versionsAt (st : TableState) (groupRows : ℕ) (snapshot : SystemTimeMicros)
    (validSnapshot : Option ValidTimeMicros) (window : Option (ValidTimeMicros × ValidTimeMicros)) :
    Except ScanError (List Version) := do
  let readers ← st.openSegmentReaders groupRows
  let scan := { st.scanAt readers snapshot with validOverlap := window }
  match validSnapshot with
  | none => scan.resolveRows
  | some v => (scan.validAsOf v).resolveRows

/-- The versions of a range read, each with its interval on the axis. -/
def rangeVersions (st : TableState) (groupRows : ℕ) (snapshot : SystemTimeMicros)
    (axis : RangeAxis) : Except ScanError (List (Version × (ℤ × ℤ))) := do
  let readers ← st.openSegmentReaders groupRows
  match axis with
  | .system range =>
    ((st.scanAt readers snapshot).executeRange range).map (List.map fun v => (v, v.sysPeriod))
  | .valid range => (st.scanAt readers snapshot).executeValidRange range

end TableState

namespace SessionEngine

variable (s : SessionEngine) (groupRows : ℕ)

/-- An input of a join at a point. -/
def joinSideColumns (side : BoundJoinSide) (snapshot : SystemTimeMicros)
    (validSnapshot : Option ValidTimeMicros) : Except JoinError (List Cells) :=
  match s.tables[side.table]? with
  | none => .error (.unknownTable side.table)
  | some st =>
    match st.versionsAt groupRows snapshot validSnapshot none with
    | .error e => .error (.scan e)
    | .ok versions => versions.mapM (reconstruct (side.columns.length - 1))

/-- An input of a join over a range: its rows with their intervals. -/
def joinSideRangeRows (side : BoundJoinSide) (snapshot : SystemTimeMicros) (axis : RangeAxis) :
    Except JoinError (List (Cells × (ℤ × ℤ))) :=
  match s.tables[side.table]? with
  | none => .error (.unknownTable side.table)
  | some st =>
    match st.rangeVersions groupRows snapshot axis with
    | .error e => .error (.scan e)
    | .ok versions => versions.mapM fun e =>
        (reconstruct (side.columns.length - 1) e.1).map fun row => (row, e.2)

end SessionEngine

/-! ### Steps -/

/-- The rows of a join step, read off its indices; a left row without a partner gets `NULL`s. -/
def gatherStep (t : JoinType) (rightWidth : ℕ) (lefts rights : List Cells) (ix : JoinIndices) :
    List Cells :=
  if t.keepsRight then
    (ix.pairs.filterMap (rowsAt lefts rights)).map fun e =>
      e.1 ++ e.2.getD (List.replicate rightWidth none)
  else ix.left.filterMap (lefts[·]?)

/-- What a left row adds to a `LEFT`, `SEMI` or `ANTI` step over a range, from the right rows of its
key. -/
def rangeEmit (t : JoinType) (rightWidth : ℕ) (l : Cells × (ℤ × ℤ))
    (rights : List (Cells × (ℤ × ℤ))) : List (Cells × (ℤ × ℤ)) :=
  let found := matched l.2 rights
  let merged := mergeCovers (covers l.2 rights)
  match t with
  | .left => found.map (fun e => (l.1 ++ e.1, e.2)) ++
      spread (l.1 ++ List.replicate rightWidth none) (gaps l.2.2 l.2.1 merged)
  | .semi => spread l.1 merged
  | .anti => spread l.1 (gaps l.2.2 l.2.1 merged)
  | .inner => []

/-- The rows of a step over a range, from the pairs of rows with equal keys. -/
def rangeStep (t : JoinType) (rightWidth : ℕ) (lefts rights : List (Cells × (ℤ × ℤ)))
    (ix : JoinIndices) : List (Cells × (ℤ × ℤ)) :=
  if t = .inner then
    (ix.pairs.filterMap (rowsAt lefts rights)).flatMap fun e =>
      (matched e.1.2 e.2.toList).map fun r => (e.1.1 ++ r.1, r.2)
  else (lefts.zip (ix.byLeft lefts.length)).flatMap fun e =>
    rangeEmit t rightWidth e.1 (e.2.filterMap (rights[·]?))

namespace SessionEngine

variable (s : SessionEngine) (groupRows : ℕ)

/-- Join one more input on, at a point. -/
def joinStep (pins : SystemTimeMicros × Option ValidTimeMicros) (acc : List Cells × Header)
    (step : BoundJoinStep) : Except JoinError (List Cells × Header) := do
  let rights ← s.joinSideColumns groupRows step.right pins.1 pins.2
  let leftKeys ← keyColumn acc.2 step.leftKey acc.1
  let rightKeys ← keyColumn step.right.columns step.rightKey rights
  let ix := hashJoin step.joinType leftKeys rightKeys
  .ok (gatherStep step.joinType step.right.columns.length acc.1 rights ix, step.header acc.2)

/-- Join one more input on, over a range. -/
def rangeJoinStep (snapshot : SystemTimeMicros) (axis : RangeAxis)
    (acc : List (Cells × (ℤ × ℤ)) × Header) (step : BoundJoinStep) :
    Except JoinError (List (Cells × (ℤ × ℤ)) × Header) := do
  let rights ← s.joinSideRangeRows groupRows step.right snapshot axis
  let leftKeys ← keyColumn acc.2 step.leftKey (acc.1.map Prod.fst)
  let rightKeys ← keyColumn step.right.columns step.rightKey (rights.map Prod.fst)
  let ix := hashJoin .inner leftKeys rightKeys
  .ok (rangeStep step.joinType step.right.columns.length acc.1 rights ix, step.header acc.2)

/-- Read a join at a point. -/
def runJoin (join : BoundJoin) (pins : SystemTimeMicros × Option ValidTimeMicros)
    (plan : FilterPlan RowPredicate) : Except JoinError (List Cells) := do
  let seed ← s.joinSideColumns groupRows join.left pins.1 pins.2
  let (rows, header) ← join.steps.foldlM (s.joinStep groupRows pins) (seed, join.left.columns)
  filterRows plan header id rows

/-- The columns of a range read: those of the join, then the two ends of the interval. -/
def endpoints : Header := [([], .timestampTz), ([], .timestampTz)]

/-- A row of a range read with the ends of its interval; an end that is open is `NULL`. -/
def withEndpoints (axis : RangeAxis) (e : Cells × (ℤ × ℤ)) : Cells :=
  e.1 ++ [some (ScalarValue.timestampTz e.2.1).encode,
    if e.2.2 = axis.openSentinel then none else some (ScalarValue.timestampTz e.2.2).encode]

/-- Read a join over a range. -/
def runJoinRange (join : BoundJoin) (snapshot : SystemTimeMicros) (axis : RangeAxis)
    (plan : FilterPlan RowPredicate) : Except JoinError (List (Cells × (ℤ × ℤ))) := do
  let seed ← s.joinSideRangeRows groupRows join.left snapshot axis
  let (rows, header) ←
    join.steps.foldlM (s.rangeJoinStep groupRows snapshot axis) (seed, join.left.columns)
  let rows := rows.filter fun e => axis.overlapWindow.overlaps e.2.1 e.2.2
  filterRows plan (header ++ endpoints) (withEndpoints axis) rows

end SessionEngine

/-! ### One step at an instant -/

section Step

variable (f g : Cells → Option Bytes) (t : ℤ)

/-- Going through the rows of an instant. -/
theorem flatMap_slice {β γ : Type*} (l : List (β × (ℤ × ℤ))) (F : β → List γ) :
    (l.flatMap fun x => if Contains x.2 t then F x.1 else []) = (slice t l).flatMap F := by
  induction l with
  | nil => rfl
  | cons x l ih =>
    obtain ⟨x, i⟩ := x
    rw [List.flatMap_cons, ih, slice_cons]
    by_cases h : Contains i t
    · rw [if_pos h, if_pos h, List.flatMap_cons]
    · rw [if_neg h, if_neg h, List.nil_append]

/-- The partners at an instant are the rows of that instant among the partners. -/
theorem slice_partners (rights : List (Cells × (ℤ × ℤ))) (x : Cells × (ℤ × ℤ)) :
    slice t (partners (fun e => f e.1) (fun e => g e.1) rights x) =
      partners f g (slice t rights) x.1 := by
  simp only [partners]
  cases f x.1 with
  | none => rfl
  | some k => exact slice_filter t (fun y => decide (g y = some k)) rights

theorem flatMap_matched (i : ℤ × ℤ) (l : List (Cells × (ℤ × ℤ))) :
    (l.flatMap fun y => matched i [y]) = matched i l := by
  induction l with
  | nil => rfl
  | cons y l ih =>
    rw [List.flatMap_cons, ih]
    simp only [matched, List.map_cons, List.map_nil, List.filter_cons]
    split <;> rfl

/-- The rows of an `INNER` step over a range, left row by left row. -/
theorem rangeStep_inner (w : ℕ) (lefts rights : List (Cells × (ℤ × ℤ))) :
    rangeStep .inner w lefts rights
        (hashJoin .inner (lefts.map fun e => f e.1) (rights.map fun e => g e.1)) =
      lefts.flatMap fun x =>
        (matched x.2 (partners (fun e => f e.1) (fun e => g e.1) rights x)).map fun r =>
          (x.1 ++ r.1, r.2) := by
  have hpairs := gather_inner (fun e : Cells × (ℤ × ℤ) => f e.1)
    (fun e : Cells × (ℤ × ℤ) => g e.1) lefts rights
  rw [rangeStep, if_pos rfl, hpairs, List.flatMap_assoc]
  refine List.flatMap_congr fun x _ => ?_
  rw [List.flatMap_map, ← flatMap_matched, List.map_flatMap]
  rfl

/-- The rows of another step, left row by left row. -/
theorem rangeStep_of_ne {ty : JoinType} (hty : ty ≠ .inner) (w : ℕ)
    (lefts rights : List (Cells × (ℤ × ℤ))) :
    rangeStep ty w lefts rights
        (hashJoin .inner (lefts.map fun e => f e.1) (rights.map fun e => g e.1)) =
      lefts.flatMap fun x =>
        rangeEmit ty w x (partners (fun e => f e.1) (fun e => g e.1) rights x) := by
  have hby := byLeft_inner (lefts.map fun e => f e.1) (rights.map fun e => g e.1)
  rw [List.length_map] at hby
  rw [rangeStep, if_neg hty, hby, List.map_map]
  have hzip : ∀ h : Cells × (ℤ × ℤ) → List ℕ, lefts.zip (lefts.map h) =
      lefts.map fun x => (x, h x) := by
    intro h
    have := List.zip_map' (l := lefts) (f := id) (g := h)
    rwa [List.map_id] at this
  rw [hzip, List.flatMap_map]
  refine List.flatMap_congr fun x _ => ?_
  have hprobe := gather_probe (fun e : Cells × (ℤ × ℤ) => f e.1)
    (fun e : Cells × (ℤ × ℤ) => g e.1) rights x
  rw [← hprobe]
  rfl

/-- **One step of the range read is, at every instant, the step of the point read.** -/
theorem slice_rangeStep (ty : JoinType) (w : ℕ) (lefts rights : List (Cells × (ℤ × ℤ))) :
    slice t (rangeStep ty w lefts rights
        (hashJoin .inner (lefts.map fun e => f e.1) (rights.map fun e => g e.1))) =
      gatherStep ty w (slice t lefts) (slice t rights)
        (hashJoin ty ((slice t lefts).map f) ((slice t rights).map g)) := by
  -- what a left row adds at `t` depends on its partners at `t`
  have hfound : ∀ x : Cells × (ℤ × ℤ),
      slice t (matched x.2 (partners (fun e => f e.1) (fun e => g e.1) rights x)) =
      if Contains x.2 t then partners f g (slice t rights) x.1 else [] := by
    intro x
    rw [slice_matched, slice_partners]
  have hmap : ∀ x : Cells × (ℤ × ℤ),
      slice t ((matched x.2 (partners (fun e => f e.1) (fun e => g e.1) rights x)).map fun r =>
        (x.1 ++ r.1, r.2)) =
      if Contains x.2 t then (partners f g (slice t rights) x.1).map (x.1 ++ ·) else [] := by
    intro x
    rw [slice_map t (x.1 ++ ·), hfound]
    split_ifs <;> rfl
  cases ty with
  | inner =>
    rw [rangeStep_inner, slice_flatMap, gatherStep, if_pos (by rfl), gather_inner f g,
      List.map_flatMap, ← flatMap_slice]
    refine List.flatMap_congr fun x _ => ?_
    rw [hmap, List.map_map]
    rfl
  | left =>
    rw [rangeStep_of_ne f g (by decide), slice_flatMap, gatherStep, if_pos (by rfl),
      gather_left f g, List.map_flatMap, ← flatMap_slice]
    refine List.flatMap_congr fun x _ => ?_
    simp only [rangeEmit]
    rw [slice_append, hmap, slice_spread_gaps, slice_partners]
    by_cases hx : Contains x.2 t
    · by_cases hp : partners f g (slice t rights) x.1 = []
      · simp [hx, hp]
      · simp [hx, hp, Function.comp_def]
    · simp [hx]
  | semi =>
    rw [rangeStep_of_ne f g (by decide), slice_flatMap, gatherStep, if_neg (by decide),
      gather_semi f g, ← flatMap_slice]
    refine List.flatMap_congr fun x _ => ?_
    simp only [rangeEmit]
    rw [slice_spread_coalesce, slice_partners]
    by_cases hx : Contains x.2 t <;> by_cases hp : partners f g (slice t rights) x.1 = [] <;>
      simp [hx, hp]
  | anti =>
    rw [rangeStep_of_ne f g (by decide), slice_flatMap, gatherStep, if_neg (by decide),
      gather_anti f g, ← flatMap_slice]
    refine List.flatMap_congr fun x _ => ?_
    simp only [rangeEmit]
    rw [slice_spread_gaps, slice_partners]
    by_cases hx : Contains x.2 t <;> by_cases hp : partners f g (slice t rights) x.1 = [] <;>
      simp [hx, hp]

end Step

/-! ### An input at an instant -/

/-- The table stores the histories `H`: its tiers do, and the live segments hold what is sealed. -/
structure Engine.Holds (e : Engine) (H : History) : Prop where
  stores : Stores e.tiers e.sealedVersions H
  read : ∃ seg, Engine.readSegments e.segments e.liveSegments = some seg ∧
    ∀ v, v ∈ seg.versions ↔ v ∈ e.sealedVersions

/-- Every engine that is sound holds its histories, so every run of calls leads to one that does
(`Engine.sound_run`). -/
theorem Engine.Sound.holds {e : Engine} {H : History} (h : e.Sound H) : e.Holds H := by
  obtain ⟨Hf, hcov, hsealed⟩ := h.covers
  obtain ⟨seg, hseg, hv, -⟩ := hcov.read
  exact ⟨h.stores, seg, hseg, fun v => (hv v).trans (hsealed v).symm⟩

/-- Lists in the order of a key with the same elements are equal. -/
theorem eq_of_keyed {β κ : Type*} [LinearOrder κ] {k : β → κ} {l l' : List β}
    (h : l.Pairwise fun a b => k a < k b) (h' : l'.Pairwise fun a b => k a < k b)
    (hmem : ∀ x, x ∈ l ↔ x ∈ l') : l = l' := by
  have : Std.Irrefl fun a b : β => k a < k b := ⟨fun a => lt_irrefl _⟩
  have : Std.Antisymm fun a b : β => k a < k b :=
    ⟨fun a b h h' => absurd (h.trans h') (lt_irrefl _)⟩
  exact h.eq_of_mem_iff h' hmem

namespace TableState

variable {st : TableState} {groupRows : ℕ} {H : History} {readers : List SegmentReader}

/-- The readers hold the rows of the segments, each row with its interval if there is an axis. -/
theorem rows_openSegmentReaders (hok : st.openSegmentReaders groupRows = .ok readers)
    {seg : Segment}
    (hseg : Engine.readSegments st.engine.segments st.engine.liveSegments = some seg) :
    readers.flatMap SegmentReader.rows = seg.versions ∧ (st.validTime = true → ∀ r ∈ readers,
      r.validTime = true ∧ ∀ v ∈ r.rows, ∃ i, v.validPair = some i) := by
  rw [openSegmentReaders] at hok
  generalize st.engine.liveSegments = live at hok hseg
  induction live generalizing readers seg with
  | nil =>
    cases hok
    cases hseg
    exact ⟨rfl, fun _ r hr => nomatch hr⟩
  | cons i live ih =>
    rw [List.mapM_cons] at hok
    cases hi : st.engine.segments[i]? with
    | none => rw [hi] at hok; cases hok
    | some file =>
      cases hf : file.open st.validTime groupRows with
      | none => simp only [hi, Option.bind_some, hf] at hok; cases hok
      | some r =>
        simp only [hi, Option.bind_some, hf] at hok
        obtain ⟨rest, hrest, hok⟩ : ∃ rest, live.mapM (fun i =>
            match st.engine.segments[i]?.bind fun s => s.open st.validTime groupRows with
            | some r => Except.ok r
            | none => .error ScanError.segment) = .ok rest ∧ r :: rest = readers := by
          cases hl : live.mapM (fun i =>
              match st.engine.segments[i]?.bind fun s => s.open st.validTime groupRows with
              | some r => Except.ok r
              | none => .error ScanError.segment) with
          | error e => rw [hl] at hok; cases hok
          | ok rest => rw [hl] at hok; exact ⟨rest, rfl, Except.ok.inj hok⟩
        obtain ⟨tail, htail, rfl⟩ : ∃ tail,
            Engine.readSegments st.engine.segments live = some tail ∧
              ({ versions := file.versions ++ tail.versions,
                 retractions := file.retractions ++ tail.retractions } : Segment) = seg := by
          rw [Engine.readSegments] at hseg
          cases hread : Engine.readSegment st.engine.segments i with
          | none => rw [hread] at hseg; cases hseg
          | some file' =>
            obtain rfl : file = file' :=
              Option.some.inj (hi.symm.trans (Engine.readSegment_eq_some.1 hread).1)
            cases hr : Engine.readSegments st.engine.segments live with
            | none => rw [hread, hr] at hseg; cases hseg
            | some tail => rw [hread, hr] at hseg; exact ⟨tail, rfl, Option.some.inj hseg⟩
        obtain ⟨hrows, hframed⟩ := ih hrest htail
        subst hok
        rw [Segment.open] at hf
        split_ifs at hf with hbad
        cases hf
        refine ⟨?_, fun hvt r' hr' => ?_⟩
        · rw [List.flatMap_cons, hrows, SegmentReader.rows, flatten_rowGroupsOf]
        · rcases List.mem_cons.1 hr' with rfl | hr'
          · refine ⟨hvt, fun v hv => ?_⟩
            rw [SegmentReader.rows, flatten_rowGroupsOf] at hv
            by_contra hno
            refine hbad ⟨hvt, v, hv, ?_⟩
            exact Option.eq_none_iff_forall_ne_some.2 fun i hi => hno ⟨i, hi⟩
          · exact hframed hvt r' hr'

/-- A scan over the opened segments reads the histories of the table. -/
theorem reads_of_open (hH : st.engine.Holds H) (hok : st.openSegmentReaders groupRows = .ok readers)
    {scan : SnapshotScan} (hdelta : scan.delta = st.engine.tiers.delta)
    (hindex : scan.index = st.engine.tiers.index) (hsegs : scan.segments = readers)
    (hvt : scan.validTime = true → st.validTime = true) : scan.Reads H := by
  obtain ⟨seg, hseg, hv⟩ := hH.read
  obtain ⟨hrows, hframed⟩ := rows_openSegmentReaders hok hseg
  have hsealed : ∀ v, v ∈ scan.sealedRows ↔ v ∈ st.engine.sealedVersions := by
    intro v
    rw [SnapshotScan.sealedRows, hsegs, hrows, hv]
  refine ⟨hH.stores.wellFormed, ?_, ?_, fun h r hr => hframed (hvt h) r (hsegs ▸ hr)⟩
  · have hrep := hH.stores.represents
    simp only [hdelta, hindex, hsealed]
    exact hrep
  · rw [hindex]
    exact hH.stores.writeOnce

theorem slice_map_pair {β : Type*} (t : ℤ) (p : β → ℤ × ℤ) (l : List β) :
    slice t (l.map fun v => (v, p v)) = l.filter fun v => Contains (p v) t := by
  simp [slice, List.filter_map, Function.comp_def]

/-- **The versions of a range read at an instant of the range** are those of the point read. -/
theorem versionsAt_asOf (hH : st.engine.Holds H) {snapshot : SystemTimeMicros}
    {axis : RangeAxis} (haxis : ∀ r, axis = .valid r → st.validTime = true)
    {versions : List (Version × (ℤ × ℤ))}
    (hok : st.rangeVersions groupRows snapshot axis = .ok versions) {t : ℤ}
    (ht : axis.overlapWindow.Includes t) :
    st.versionsAt groupRows (axis.asOf snapshot t).1 (axis.asOf snapshot t).2 none =
      .ok (slice t versions) := by
  cases hopen : st.openSegmentReaders groupRows with
  | error e => rw [rangeVersions, hopen] at hok; cases hok
  | ok readers =>
    cases axis with
    | system range =>
      have hr : (st.scanAt readers snapshot).Reads H :=
        reads_of_open hH hopen rfl rfl rfl fun h => h
      have hp : (st.scanAt readers t).Reads H := reads_of_open hH hopen rfl rfl rfl fun h => h
      cases hrows : (st.scanAt readers snapshot).executeRange range with
      | error e => simp only [rangeVersions, hopen, bind, Except.bind, hrows] at hok; cases hok
      | ok rows =>
        simp only [rangeVersions, hopen, bind, Except.bind, hrows] at hok
        cases hok
        obtain ⟨hsorted, -, hat⟩ := hr.executeRange_spec rfl rfl hrows
        obtain ⟨hread, hmem⟩ := hat t ht
        obtain ⟨out, hout, hkeys, hmem'⟩ := hp.resolveRows_spec (fun h => (nomatch h)) rfl hread
        have heq : out = rows.filter fun v => Contains v.sysPeriod t := by
          refine eq_of_keyed (k := Version.id) (hkeys.imp fun hlt => ?_) (hsorted.filter _)
            fun x => ?_
          · exact Prod.Lex.toLex_lt_toLex.2 (.inl hlt)
          · rw [hmem', List.mem_filter, decide_eq_true_eq, hmem]
            rfl
        rw [versionsAt, hopen, slice_map_pair, ← heq]
        exact hout
    | valid range =>
      have hvt := haxis range rfl
      have hr : ((st.scanAt readers snapshot).validRange range).Reads H :=
        reads_of_open hH hopen rfl rfl rfl fun _ => hvt
      have hp : ((st.scanAt readers snapshot).validAsOf t).Reads H :=
        reads_of_open hH hopen rfl rfl rfl fun _ => hvt
      simp only [rangeVersions, hopen, bind, Except.bind] at hok
      obtain ⟨hsorted, -, hat⟩ := hr.executeValidRange_spec rfl hok
      obtain ⟨hread, hmem⟩ := hat t ht
      obtain ⟨out, hout, hkeys, hmem'⟩ := hp.resolveRows_spec (fun _ => rfl) rfl hread
      have heq : out = slice t versions := by
        refine eq_of_keyed (k := Version.businessKey) hkeys ?_ fun x => ?_
        · rw [slice, List.pairwise_map]
          exact hsorted.filter _
        · rw [hmem', mem_slice]
          constructor
          · rintro ⟨v, hv, hc, i, hi, hit⟩
            exact ⟨i, (hmem x i).2 ⟨v, hv, hc, hi, hit t rfl⟩⟩
          · rintro ⟨i, hi⟩
            obtain ⟨v, hv, hc, hvx, hit⟩ := (hmem x i).1 hi
            refine ⟨v, hv, hc, i, hvx, fun p hp => ?_⟩
            obtain rfl : t = p := Option.some.inj hp
            exact hit
      rw [versionsAt, hopen, ← heq]
      exact hout

end TableState

/-! ### The chain at an instant -/

theorem length_decodeFrame {n : ℕ} {bytes rest : Bytes} {cells : Cells}
    (h : decodeFrame n bytes = .ok (cells, rest)) : cells.length = n := by
  induction n generalizing bytes cells rest with
  | zero => cases h; rfl
  | succ n ih =>
    cases bytes with
    | nil => cases h
    | cons tag bytes =>
      simp only [decodeFrame] at h
      split_ifs at h with h0 h1
      · cases hd : decodeFrame n bytes with
        | error e => rw [hd] at h; cases h
        | ok out =>
          rw [hd] at h
          cases h
          rw [List.length_cons, ih hd]
      · cases hl : takeBytes bytes 8 "a cell length" with
        | error e => rw [hl] at h; cases h
        | ok out =>
          rw [hl] at h
          simp only [bind, Except.bind] at h
          cases hv : takeBytes out.2 (leNat out.1) "a cell value" with
          | error e => rw [hv] at h; cases h
          | ok value =>
            rw [hv] at h
            cases hd : decodeFrame n value.2 with
            | error e => simp only [hd] at h; cases h
            | ok out =>
              simp only [hd] at h
              cases h
              rw [List.length_cons, ih hd]

theorem length_decodePayload {n : ℕ} {payload : Option Bytes} {cells : Cells}
    (h : decodePayload n payload = .ok cells) : cells.length = n := by
  match n, payload with
  | 0, _ => cases h; rfl
  | 1, _ => cases h; rfl
  | n + 2, none => cases h; exact List.length_replicate
  | n + 2, some bytes =>
    simp only [decodePayload] at h
    cases hd : decodeFrame (n + 2) bytes with
    | error e => rw [hd] at h; cases h
    | ok out =>
      rw [hd] at h
      simp only [bind, Except.bind] at h
      split_ifs at h
      cases h
      exact length_decodeFrame hd

theorem length_reconstruct {n : ℕ} {v : Version} {row : Cells} (h : reconstruct n v = .ok row) :
    row.length = n + 1 := by
  rw [reconstruct] at h
  cases hd : decodePayload n v.payload with
  | error e => rw [hd] at h; cases h
  | ok cells =>
    rw [hd] at h
    cases h
    rw [List.length_cons, length_decodePayload hd]

/-- A column is decoded cell by cell. -/
theorem decodeCells_eq_ok {ty : LogicalType} {cells : List (Option Bytes)}
    {values : List (Option ScalarValue)} (h : decodeCells ty cells = .ok values) :
    ∃ g : Option Bytes → Option ScalarValue, values = cells.map g ∧
      ∀ cells', (∀ c ∈ cells', c ∈ cells) → decodeCells ty cells' = .ok (cells'.map g) := by
  rw [decodeCells] at h
  split_ifs at h with hty
  obtain ⟨g, rfl, hg⟩ := exists_of_mapM_ok h
  refine ⟨g, rfl, fun cells' hsub => ?_⟩
  rw [decodeCells, if_neg hty]
  exact mapM_of_forall fun c hc => hg c (hsub c hc)

/-- The keys of rows are computed row by row. -/
theorem keyColumn_eq_ok {header : Header} {key : ℕ} {rows : List Cells} {keys : List (Option Bytes)}
    (h : keyColumn header key rows = .ok keys) :
    ∃ f : Cells → Option Bytes, keys = rows.map f ∧
      ∀ rows', (∀ r ∈ rows', r ∈ rows) → keyColumn header key rows' = .ok (rows'.map f) := by
  cases hc : header[key]? with
  | none => rw [keyColumn, hc] at h; cases h
  | some column =>
    simp only [keyColumn, hc] at h ⊢
    cases hm : decodeCells column.2 (rows.map (cell key)) with
    | error e => rw [hm] at h; cases h
    | ok values =>
      rw [hm] at h
      cases h
      obtain ⟨g, rfl, hg⟩ := decodeCells_eq_ok hm
      refine ⟨fun row => (g (cell key row)).map ScalarValue.encode, by simp, fun rows' hsub => ?_⟩
      rw [hg (rows'.map (cell key)) fun c hc => ?_]
      · simp
      · obtain ⟨row, hrow, rfl⟩ := List.mem_map.1 hc
        exact List.mem_map_of_mem (hsub row hrow)

namespace SessionEngine

variable {s : SessionEngine} {groupRows : ℕ} {snapshot : SystemTimeMicros}
    {axis : RangeAxis} {t : ℤ}

/-- The tables store histories. -/
def HoldsHistories (s : SessionEngine) : Prop :=
  ∀ (name : Name) (st : TableState), s.tables[name]? = some st → ∃ H, st.engine.Holds H

/-- The input has the axis; the binder checks it. -/
def HasAxis (s : SessionEngine) (axis : RangeAxis) (side : BoundJoinSide) : Prop :=
  ∀ r, axis = .valid r → ∀ st, s.tables[side.table]? = some st → st.validTime = true

/-- An input of the range read at an instant. -/
theorem joinSideColumns_asOf (hH : s.HoldsHistories) {side : BoundJoinSide}
    (hside : s.HasAxis axis side) {rows : List (Cells × (ℤ × ℤ))}
    (hok : s.joinSideRangeRows groupRows side snapshot axis = .ok rows)
    (ht : axis.overlapWindow.Includes t) :
    s.joinSideColumns groupRows side (axis.asOf snapshot t).1 (axis.asOf snapshot t).2 =
      .ok (slice t rows) := by
  rw [joinSideRangeRows] at hok
  rw [joinSideColumns]
  cases hst : s.tables[side.table]? with
  | none => rw [hst] at hok; cases hok
  | some st =>
    simp only [hst] at hok ⊢
    obtain ⟨H, hst'⟩ := hH _ _ hst
    cases hv : st.rangeVersions groupRows snapshot axis with
    | error e => rw [hv] at hok; cases hok
    | ok versions =>
      simp only [hv] at hok
      rw [st.versionsAt_asOf hst' (fun r hr => hside r hr st hst) hv ht]
      let n := side.columns.length - 1
      let cells (v : Version) : Cells := (reconstruct n v).toOption.getD []
      have hcells : ∀ e ∈ versions, reconstruct n e.1 = .ok (cells e.1) := by
        intro e he
        obtain ⟨y, hy⟩ := (mapM_eq_ok.1 hok).1 e he
        cases hr : reconstruct n e.1 with
        | error err => rw [hr] at hy; cases hy
        | ok row => simp [cells, hr, Except.toOption]
      have hrows : rows = versions.map fun e => (cells e.1, e.2) := by
        refine Except.ok.inj (hok.symm.trans (mapM_of_forall fun e he => ?_))
        rw [hcells e he]
        rfl
      have hpoint : (slice t versions).mapM (reconstruct n) =
          .ok ((slice t versions).map cells) := by
        refine mapM_of_forall fun v hv => ?_
        obtain ⟨i, hi, -⟩ := mem_slice.1 hv
        exact hcells _ hi
      rw [hrows, slice_map t cells]
      exact hpoint

theorem rangeJoinStep_eq_ok {step : BoundJoinStep} {acc acc' : List (Cells × (ℤ × ℤ)) × Header}
    (hok : s.rangeJoinStep groupRows snapshot axis acc step = .ok acc') :
    ∃ rights leftKeys rightKeys,
      s.joinSideRangeRows groupRows step.right snapshot axis = .ok rights ∧
      keyColumn acc.2 step.leftKey (acc.1.map Prod.fst) = .ok leftKeys ∧
      keyColumn step.right.columns step.rightKey (rights.map Prod.fst) = .ok rightKeys ∧
      acc' = (rangeStep step.joinType step.right.columns.length acc.1 rights
        (hashJoin .inner leftKeys rightKeys), step.header acc.2) := by
  cases hr : s.joinSideRangeRows groupRows step.right snapshot axis with
  | error e => rw [rangeJoinStep, hr] at hok; cases hok
  | ok rights =>
    cases hl : keyColumn acc.2 step.leftKey (acc.1.map Prod.fst) with
    | error e => simp only [rangeJoinStep, hr, bind, Except.bind, hl] at hok; cases hok
    | ok leftKeys =>
      cases hk : keyColumn step.right.columns step.rightKey (rights.map Prod.fst) with
      | error e => simp only [rangeJoinStep, hr, bind, Except.bind, hl, hk] at hok; cases hok
      | ok rightKeys =>
        simp only [rangeJoinStep, hr, bind, Except.bind, hl, hk] at hok
        cases hok
        exact ⟨rights, leftKeys, rightKeys, rfl, rfl, hk, rfl⟩

theorem joinStep_eq_ok {pins : SystemTimeMicros × Option ValidTimeMicros} {step : BoundJoinStep}
    {acc acc' : List Cells × Header} (hok : s.joinStep groupRows pins acc step = .ok acc') :
    ∃ rights leftKeys rightKeys, s.joinSideColumns groupRows step.right pins.1 pins.2 = .ok rights ∧
      acc' = (gatherStep step.joinType step.right.columns.length acc.1 rights
        (hashJoin step.joinType leftKeys rightKeys), step.header acc.2) := by
  cases hr : s.joinSideColumns groupRows step.right pins.1 pins.2 with
  | error e => rw [joinStep, hr] at hok; cases hok
  | ok rights =>
    cases hl : keyColumn acc.2 step.leftKey acc.1 with
    | error e => simp only [joinStep, hr, bind, Except.bind, hl] at hok; cases hok
    | ok leftKeys =>
      cases hk : keyColumn step.right.columns step.rightKey rights with
      | error e => simp only [joinStep, hr, bind, Except.bind, hl, hk] at hok; cases hok
      | ok rightKeys =>
        simp only [joinStep, hr, bind, Except.bind, hl, hk] at hok
        cases hok
        exact ⟨rights, leftKeys, rightKeys, rfl, rfl⟩

/-- A step of the range read at an instant. -/
theorem joinStep_asOf (hH : s.HoldsHistories) {step : BoundJoinStep}
    (hside : s.HasAxis axis step.right) {acc acc' : List (Cells × (ℤ × ℤ)) × Header}
    (hok : s.rangeJoinStep groupRows snapshot axis acc step = .ok acc')
    (ht : axis.overlapWindow.Includes t) :
    s.joinStep groupRows (axis.asOf snapshot t) (slice t acc.1, acc.2) step =
      .ok (slice t acc'.1, acc'.2) := by
  obtain ⟨rights, leftKeys, rightKeys, hr, hl, hk, rfl⟩ := rangeJoinStep_eq_ok hok
  obtain ⟨f, rfl, hf⟩ := keyColumn_eq_ok hl
  obtain ⟨g, rfl, hg⟩ := keyColumn_eq_ok hk
  have hsub : ∀ l : List (Cells × (ℤ × ℤ)), ∀ r ∈ slice t l, r ∈ l.map Prod.fst := by
    intro l r hr
    obtain ⟨i, hi, -⟩ := mem_slice.1 hr
    exact List.mem_map.2 ⟨_, hi, rfl⟩
  simp only [joinStep, joinSideColumns_asOf hH hside hr ht, bind, Except.bind,
    hf _ (hsub acc.1), hg _ (hsub rights), List.map_map]
  rw [← slice_rangeStep f g t]
  rfl

/-- A chain of steps at an instant. -/
theorem foldlM_joinStep_asOf (hH : s.HoldsHistories) {steps : List BoundJoinStep}
    (hsides : ∀ step ∈ steps, s.HasAxis axis step.right)
    {acc acc' : List (Cells × (ℤ × ℤ)) × Header}
    (hok : steps.foldlM (s.rangeJoinStep groupRows snapshot axis) acc = .ok acc')
    (ht : axis.overlapWindow.Includes t) :
    steps.foldlM (s.joinStep groupRows (axis.asOf snapshot t)) (slice t acc.1, acc.2) =
      .ok (slice t acc'.1, acc'.2) := by
  induction steps generalizing acc with
  | nil => cases hok; rfl
  | cons step steps ih =>
    rw [List.foldlM_cons] at hok ⊢
    cases hs : s.rangeJoinStep groupRows snapshot axis acc step with
    | error e => rw [hs] at hok; cases hok
    | ok mid =>
      rw [hs] at hok
      rw [joinStep_asOf hH (hsides step List.mem_cons_self) hs ht]
      exact ih (fun st hst => hsides st (List.mem_cons_of_mem _ hst)) hok

/-! ### The width of rows -/

/-- Every row has at least the cells of the header. -/
def Wide (acc : List Cells × Header) : Prop := ∀ row ∈ acc.1, acc.2.length ≤ row.length

theorem wide_joinSideColumns {side : BoundJoinSide} {valid : Option ValidTimeMicros}
    {rows : List Cells} (hok : s.joinSideColumns groupRows side snapshot valid = .ok rows) :
    Wide (rows, side.columns) := by
  rw [joinSideColumns] at hok
  cases hst : s.tables[side.table]? with
  | none => rw [hst] at hok; cases hok
  | some st =>
    simp only [hst] at hok
    cases hv : st.versionsAt groupRows snapshot valid none with
    | error e => rw [hv] at hok; cases hok
    | ok versions =>
      simp only [hv] at hok
      intro row hrow
      obtain ⟨v, -, hrow⟩ := (mem_of_mapM_ok hok).1 hrow
      have hlen := length_reconstruct hrow
      show side.columns.length ≤ row.length
      omega

theorem wide_joinStep {pins : SystemTimeMicros × Option ValidTimeMicros}
    {acc acc' : List Cells × Header} {step : BoundJoinStep} (hw : Wide acc)
    (hok : s.joinStep groupRows pins acc step = .ok acc') : Wide acc' := by
  obtain ⟨rights, leftKeys, rightKeys, hr, rfl⟩ := joinStep_eq_ok hok
  intro row hrow
  simp only [gatherStep] at hrow
  simp only [BoundJoinStep.header]
  split_ifs at hrow ⊢ with hkeep
  · obtain ⟨e, he, rfl⟩ := List.mem_map.1 hrow
    obtain ⟨p, -, hp⟩ := List.mem_filterMap.1 he
    obtain ⟨x, hx, rfl⟩ := Option.map_eq_some_iff.1 hp
    have hleft := hw x (List.mem_of_getElem? hx)
    rw [List.length_append, List.length_append]
    refine Nat.add_le_add hleft ?_
    cases hright : p.2.bind (rights[·]?) with
    | none => simp
    | some y =>
      obtain ⟨r, -, hy⟩ := Option.bind_eq_some_iff.1 hright
      exact wide_joinSideColumns hr y (List.mem_of_getElem? hy)
  · obtain ⟨l, -, hx⟩ := List.mem_filterMap.1 hrow
    exact hw row (List.mem_of_getElem? hx)

theorem wide_foldlM {pins : SystemTimeMicros × Option ValidTimeMicros} {steps : List BoundJoinStep}
    {acc acc' : List Cells × Header} (hw : Wide acc)
    (hok : steps.foldlM (s.joinStep groupRows pins) acc = .ok acc') : Wide acc' := by
  induction steps generalizing acc with
  | nil => cases hok; exact hw
  | cons step steps ih =>
    rw [List.foldlM_cons] at hok
    cases hs : s.joinStep groupRows pins acc step with
    | error e => rw [hs] at hok; cases hok
    | ok mid =>
      rw [hs] at hok
      exact ih (wide_joinStep hw hs) hok

theorem header_foldlM {steps : List BoundJoinStep} {acc acc' : List (Cells × (ℤ × ℤ)) × Header}
    (hok : steps.foldlM (s.rangeJoinStep groupRows snapshot axis) acc = .ok acc') :
    acc'.2 = steps.foldl BoundJoinStep.header acc.2 := by
  induction steps generalizing acc with
  | nil => cases hok; rfl
  | cons step steps ih =>
    rw [List.foldlM_cons] at hok
    cases hs : s.rangeJoinStep groupRows snapshot axis acc step with
    | error e => rw [hs] at hok; cases hok
    | ok mid =>
      rw [hs] at hok
      rw [List.foldl_cons, ih hok]
      obtain ⟨rights, leftKeys, rightKeys, -, -, -, rfl⟩ := rangeJoinStep_eq_ok hs
      rfl

/-! ### The `WHERE` clause at an instant -/

theorem mapM_congr {ε β γ : Type*} {f g : β → Except ε γ} {l : List β} (h : ∀ x ∈ l, f x = g x) :
    l.mapM f = l.mapM g := by
  induction l with
  | nil => rfl
  | cons x l ih =>
    rw [List.mapM_cons, List.mapM_cons, h x List.mem_cons_self,
      ih fun y hy => h y (List.mem_cons_of_mem _ hy)]

/-- A predicate that does not read the ends of the interval does not depend on them. -/
theorem passes_withEndpoints {p : RowPredicate} {header : Header} {row : Cells}
    (hw : header.length ≤ row.length) (hb : ∀ i ∈ p.columns, i < header.length) (i : ℤ × ℤ) :
    p.passes (header ++ endpoints) (withEndpoints axis (row, i)) = p.passes header row := by
  have hcell : ∀ j ∈ p.columns, cellValue (header ++ endpoints) (withEndpoints axis (row, i)) j =
      cellValue header row j := by
    intro j hj
    have hj := hb j hj
    have hrow : cell j (withEndpoints axis (row, i)) = cell j row := by
      rw [cell, withEndpoints, List.getElem?_append_left (hj.trans_le hw), cell]
    rw [cellValue, cellValue, List.getElem?_append_left hj, hrow, List.getElem?_eq_getElem hj]
  rw [RowPredicate.passes, RowPredicate.passes, mapM_congr hcell]

theorem filterMap_zip_map {β : Type*} (l : List β) (b : β → Bool) :
    ((l.zip (l.map b)).filterMap fun e => if e.2 then some e.1 else none) = l.filter b := by
  induction l with
  | nil => rfl
  | cons x l ih => cases hb : b x <;> simp [hb, ih]

/-- The rows of a range read that pass, at an instant. -/
theorem filterRows_asOf {plan : FilterPlan RowPredicate} {header : Header}
    (hplan : plan.Below header.length)
    {rows rows' : List (Cells × (ℤ × ℤ))} (hw : Wide (slice t rows, header))
    (hok : filterRows plan (header ++ endpoints) (withEndpoints axis) rows = .ok rows') :
    filterRows plan header id (slice t rows) = .ok (slice t rows') := by
  cases plan with
  | empty => cases hok; rfl
  | keepAll => cases hok; rfl
  | predicate p =>
    simp only [filterRows, FilterPlan.filterRows, RowPredicate.passing] at hok ⊢
    cases hm : rows.mapM fun e => p.passes (header ++ endpoints) (withEndpoints axis e) with
    | error e => rw [hm] at hok; cases hok
    | ok mask =>
      rw [hm] at hok
      cases hok
      obtain ⟨b, rfl, hb⟩ := exists_of_mapM_ok hm
      -- at the instant the predicate sees the cells of the join only
      let keep (row : Cells) : Bool := (p.passes header row).toOption.getD false
      have hpass : ∀ e ∈ rows, Contains e.2 t → p.passes header e.1 = .ok (b e) := by
        intro e he hc
        have hwide := hw e.1 (mem_slice.2 ⟨e.2, he, hc⟩)
        rw [← passes_withEndpoints hwide hplan e.2]
        exact hb e he
      have hkeep : ∀ e ∈ rows, Contains e.2 t → b e = keep e.1 := by
        intro e he hc
        simp [keep, hpass e he hc, Except.toOption]
      have hpoint : (slice t rows).mapM (fun row => p.passes header (id row)) =
          .ok ((slice t rows).map keep) := by
        refine mapM_of_forall fun row hrow => ?_
        obtain ⟨i, hi, hc⟩ := mem_slice.1 hrow
        rw [← hkeep _ hi hc]
        exact hpass _ hi hc
      rw [hpoint]
      simp only [filterMap_zip_map, Except.ok.injEq]
      rw [← slice_filter t keep rows, slice, slice, List.filter_filter, List.filter_filter]
      congr 1
      refine List.filter_congr fun e he => ?_
      by_cases hc : Contains e.2 t
      · rw [hkeep e he hc]
      · simp [hc]

/-- **Range reads over joins are snapshot reducible.**  No row of a range read over a chain of joins
has an empty interval, and for every instant of the range the rows whose interval contains it are
the rows of the same join read as of that instant on that axis.  The `WHERE` clause does not read
the ends of the interval. -/
theorem runJoinRange_slice (hH : s.HoldsHistories) (join : BoundJoin)
    (hsides : ∀ side ∈ join.sides, s.HasAxis axis side) {plan : FilterPlan RowPredicate}
    (hplan : plan.Below join.header.length) {rows : List (Cells × (ℤ × ℤ))}
    (hok : s.runJoinRange groupRows join snapshot axis plan = .ok rows) :
    (∀ e ∈ rows, e.2.1 < e.2.2) ∧ ∀ t, axis.overlapWindow.Includes t →
      s.runJoin groupRows join (axis.asOf snapshot t) plan = .ok (slice t rows) := by
  cases hseed : s.joinSideRangeRows groupRows join.left snapshot axis with
  | error e => rw [runJoinRange, hseed] at hok; cases hok
  | ok seed =>
    cases hfold : join.steps.foldlM (s.rangeJoinStep groupRows snapshot axis)
        (seed, join.left.columns) with
    | error e => simp only [runJoinRange, hseed, bind, Except.bind, hfold] at hok; cases hok
    | ok acc =>
      simp only [runJoinRange, hseed, bind, Except.bind, hfold] at hok
      have hheader : acc.2 = join.header := header_foldlM hfold
      refine ⟨fun e he => ?_, fun t ht => ?_⟩
      · -- a row that is kept meets the range
        have hmem : e ∈ acc.1.filter fun e => axis.overlapWindow.overlaps e.2.1 e.2.2 := by
          cases plan with
          | empty => cases hok; cases he
          | keepAll => cases hok; exact he
          | predicate p =>
            simp only [filterRows, FilterPlan.filterRows, RowPredicate.passing] at hok
            split at hok
            · cases hok
            · cases hok
              obtain ⟨e', he', hsome⟩ := List.mem_filterMap.1 he
              split_ifs at hsome
              obtain rfl := Option.some.inj hsome
              exact (List.of_mem_zip he').1
        have ho := (List.mem_filter.1 hmem).2
        simp only [TimeRange.overlaps, Bool.and_eq_true, decide_eq_true_eq] at ho
        exact ho.1.1
      · have hseed' := joinSideColumns_asOf hH (hsides _ List.mem_cons_self) hseed ht
        have hfold' := foldlM_joinStep_asOf hH (fun step hstep =>
          hsides _ (List.mem_cons_of_mem _ (List.mem_map_of_mem hstep))) hfold ht
        have hwide : Wide (slice t acc.1, acc.2) := wide_foldlM (wide_joinSideColumns hseed') hfold'
        have hmeets : slice t (acc.1.filter fun e => axis.overlapWindow.overlaps e.2.1 e.2.2) =
            slice t acc.1 := by
          rw [slice, slice, List.filter_filter]
          congr 1
          refine List.filter_congr fun e _ => ?_
          by_cases hc : Contains e.2 t
          · simp [hc, TimeRange.overlaps_of_contains ht hc]
          · simp [hc]
        simp only [runJoin, hseed', bind, Except.bind, hfold']
        rw [← hmeets] at hwide ⊢
        exact filterRows_asOf (hheader ▸ hplan) hwide hok

/-! ### An example -/

/-- A row with the value 7, which becomes 8 at instant 30; the first version is sealed. -/
def orderCalls : List Call :=
  [.write ⟨10, [1], 1, [], .insert none (some [7]) 0⟩, .flush,
    .write ⟨30, [1], 3, [], .update none (some [8]) 0⟩]

/-- A row with the key 7, from instant 20 to instant 40. -/
def partCalls : List Call :=
  [.write ⟨20, [7], 2, [], .insert none (some [9]) 0⟩, .write ⟨40, [7], 4, [], .delete⟩, .flush]

/-- A session with the two tables. -/
def orderSession : SessionEngine :=
  { clock := ⟨fun n => n, 50, 0⟩
    tables := (∅ : OrdMap Name TableState).insert [111] ⟨Engine.run false [] orderCalls, false, 0⟩
      |>.insert [112] ⟨Engine.run false [] partCalls, false, 1⟩ }

/-- The rows of the first table, each with the row of the second that has its value as key. -/
def orderJoin : BoundJoin :=
  ⟨⟨[111], [([107], .bytea), ([118], .bytea)]⟩,
    [⟨.left, ⟨[112], [([107], .bytea), ([118], .bytea)]⟩, 1, 0⟩]⟩

theorem orderSession_holds : orderSession.HoldsHistories := by
  have hrun : ∀ calls, SeqContract (calls.flatMap Call.writes) → Call.compact ∉ calls →
      ∃ H, (Engine.run false [] calls).Holds H := by
    intro calls hseq hcompact
    have hroom : Engine.CompactsInTime false [] calls := fun past hp =>
      absurd (hp.subset (by simp)) hcompact
    obtain ⟨H, h, -⟩ := Engine.sound_run hseq hroom
    exact ⟨H, h.holds⟩
  intro name st hst
  rw [orderSession, OrdMap.getElem?_insert, OrdMap.getElem?_insert] at hst
  split_ifs at hst with h1 h2
  · cases hst
    exact hrun partCalls (by simp [SeqContract, partCalls, Call.writes, DmlWrite.seq])
      (by simp [partCalls])
  · cases hst
    exact hrun orderCalls (by simp [SeqContract, orderCalls, Call.writes, DmlWrite.seq])
      (by simp [orderCalls])
  · simp at hst

theorem orderSession_slice :
    orderSession.runJoinRange 2 orderJoin 50 (.system ⟨0, 50, false⟩) .keepAll =
        .ok [([some [1], some [7], some [7], some [9]], 20, 30),
          ([some [1], some [7], none, none], 10, 20),
          ([some [1], some [8], none, none], 30, systemTimeOpen)] ∧
      orderSession.runJoin 2 orderJoin (25, none) .keepAll =
        .ok [[some [1], some [7], some [7], some [9]]] := by
  have hok : orderSession.runJoinRange 2 orderJoin 50 (.system ⟨0, 50, false⟩) .keepAll =
      .ok [([some [1], some [7], some [7], some [9]], 20, 30),
        ([some [1], some [7], none, none], 10, 20),
        ([some [1], some [8], none, none], 30, systemTimeOpen)] := by decide +kernel
  have haxis : ∀ side ∈ orderJoin.sides, orderSession.HasAxis (.system ⟨0, 50, false⟩) side :=
    fun side _ r hr => nomatch hr
  have hplan : FilterPlan.keepAll.Below orderJoin.header.length := trivial
  have hslice := (runJoinRange_slice orderSession_holds orderJoin haxis hplan hok).2 25 (by decide)
  exact ⟨hok, hslice.trans (by decide)⟩

end SessionEngine

end SteleDb
