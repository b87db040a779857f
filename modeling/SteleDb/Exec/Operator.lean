import SteleDb.Exec.Expr
import SteleDb.Exec.SnapshotScan

/-!
# The pull pipeline

A scan hands out its rows in batches, `ExplodePayload` slices the payload of each row into the
value columns, and `Filter` keeps the rows of a batch for which a predicate is true.  A filter does
not copy what it keeps: the batch goes on with its columns as they are and a selection of rows.

What an operator gives when it is pulled to the end is a `Pulls`.  The same stages, one row at a
time, are `explodeRow` and `rowKeeps`.

* `drain_filter` : whatever the batches and their selections are, the rows that come out of a filter
  are the rows that go in for which the predicate is true, in order;
* `drain_explodePayload` : an exploded stream has the exploded rows;
* `drain_scanSource` : the rows of a scan do not depend on the size of the batches.
-/

namespace SteleDb

/-! ### Batches -/

/-- The values of a column. -/
inductive Column where
  /-- Variable-length cells, `none` for `NULL`. -/
  | bytes (cells : List (Option Bytes))
  /-- Fixed-width cells. -/
  | i64 (cells : List ℤ)
  deriving DecidableEq, Repr

/-- One value of a column. -/
inductive StoredCell where
  | bytes (cell : Option Bytes)
  | i64 (value : ℤ)
  deriving DecidableEq, Repr

namespace Column

/-- The number of values. -/
def len : Column → ℕ
  | bytes v => v.length
  | i64 v => v.length

/-- The window of `len` values from `offset` on. -/
def slice (offset len : ℕ) : Column → Column
  | bytes v => bytes ((v.drop offset).take len)
  | i64 v => i64 ((v.drop offset).take len)

/-- The values of given rows. -/
def take (rows : List ℕ) : Column → Column
  | bytes v => bytes (rows.map fun i => v[i]?.join)
  | i64 v => i64 (rows.map fun i => v[i]?.getD 0)

/-- The value of a row. -/
def cell (i : ℕ) : Column → StoredCell
  | bytes v => .bytes v[i]?.join
  | i64 v => .i64 (v[i]?.getD 0)

end Column

/-- The cells of a row. -/
abbrev StoredRow := List (ColumnId × StoredCell)

/-- Some rows of a result.  If there is a selection, the columns are longer and the rows are the
selected ones. -/
structure Batch where
  /-- The columns. -/
  columns : List (ColumnId × Column)
  /-- The number of rows. -/
  rows : ℕ
  /-- The rows of the columns that are meant, in order. -/
  selection : Option (List ℕ)
  deriving DecidableEq, Repr

namespace Batch

/-- A batch of all rows of its columns. -/
def new (columns : List (ColumnId × Column)) (rows : ℕ) : Batch := ⟨columns, rows, none⟩

/-- A batch of selected rows. -/
def withSelection (columns : List (ColumnId × Column)) (selection : List ℕ) : Batch :=
  ⟨columns, selection.length, some selection⟩

/-- Where a row of the batch stands in its columns. -/
def physicalRow (b : Batch) (logical : ℕ) : ℕ :=
  match b.selection with
  | none => logical
  | some sel => sel[logical]?.getD 0

/-- The batch with the selected rows copied out. -/
def intoDense (b : Batch) : Batch :=
  match b.selection with
  | none => b
  | some sel => new (b.columns.map fun c => (c.1, c.2.take sel)) b.rows

/-- A row, read through the selection. -/
def row (b : Batch) (logical : ℕ) : StoredRow :=
  b.columns.map fun c => (c.1, c.2.cell (b.physicalRow logical))

/-- The rows in order. -/
def logicalRows (b : Batch) : List StoredRow := (List.range b.rows).map b.row

/-- The columns are as long as the batch, or have the rows that are selected. -/
def Aligned (b : Batch) : Prop :=
  match b.selection with
  | none => ∀ c ∈ b.columns, c.2.len = b.rows
  | some sel => sel.length = b.rows ∧ ∀ c ∈ b.columns, ∀ i ∈ sel, i < c.2.len

end Batch

/-! ### Streams -/

/-- What an operator gives when it is pulled to the end. -/
inductive Pulls where
  /-- There are no more batches. -/
  | done
  /-- The pull fails. -/
  | fail (e : ScanError)
  /-- A batch, and what comes after it. -/
  | more (batch : Batch) (rest : Pulls)
  deriving DecidableEq, Repr

namespace Pulls

/-- The rows of a stream, unless a pull fails. -/
def drain : Pulls → Except ScanError (List StoredRow)
  | done => .ok []
  | fail e => .error e
  | more batch rest => do
    let rows ← rest.drain
    .ok (batch.logicalRows ++ rows)

/-- Every batch has rows, and its columns are as long as they should be. -/
def Sound : Pulls → Prop
  | done => True
  | fail _ => True
  | more batch rest => batch.Aligned ∧ 0 < batch.rows ∧ rest.Sound

end Pulls

/-! ### The operators -/

/-- The windows of a resolved scan from `cursor` on. -/
def ScanSource.windows (batch : Batch) (batchRows cursor : ℕ) : Pulls :=
  if batch.rows ≤ cursor then .done
  else
    -- a batch size of `0` would never make progress
    let len := min (max batchRows 1) (batch.rows - cursor)
    .more (.new (batch.columns.map fun c => (c.1, c.2.slice cursor len)) len)
      (ScanSource.windows batch batchRows (cursor + len))
termination_by batch.rows - cursor
decreasing_by omega

/-- The batches of a scan, which is run at the first pull. -/
def scanSource (batchRows : ℕ) : Except ScanError Batch → Pulls
  | .error e => .fail e
  | .ok batch => ScanSource.windows batch batchRows 0

/-- The columns besides the key and the payload. -/
def passthrough {α : Type} (columns : List (ColumnId × α)) : List (ColumnId × α) :=
  columns.filter fun c => c.1 ≠ .businessKey ∧ c.1 ≠ .payload

/-- The first column with an id. -/
def findColumn {α : Type} (id : ColumnId) (columns : List (ColumnId × α)) : Except ScanError α :=
  match columns.find? (·.1 = id) with
  | some c => .ok c.2
  | none => .error (.missingColumn id)

/-- The cells of a payload. -/
def explodeCell (valueCount : ℕ) (cell : Option Bytes) : Except ScanError Cells :=
  (decodePayload valueCount cell).mapError .rowCodec

/-- Slice the payloads of a batch into `valueCount` columns after the key. -/
def ExplodePayload.explode (valueCount : ℕ) (batch : Batch) : Except ScanError Batch := do
  let batch := batch.intoDense
  let key ← findColumn .businessKey batch.columns
  if valueCount = 0 then
    .ok (.new ((.businessKey, key) :: passthrough batch.columns) batch.rows)
  else
    match ← findColumn .payload batch.columns with
    | .i64 _ => .error (.missingColumn .payload)
    | .bytes payloadCells =>
      let decoded ← payloadCells.mapM (explodeCell valueCount)
      -- a payload decodes to `valueCount` cells, so every column gets one from each
      let values := (List.range valueCount).map fun j =>
        (ColumnId.payload, Column.bytes (decoded.map fun cells => cells[j]?.join))
      .ok (.new ((.businessKey, key) :: (values ++ passthrough batch.columns)) batch.rows)

/-- The exploded batches of a stream. -/
def explodePayload (valueCount : ℕ) : Pulls → Pulls
  | .done => .done
  | .fail e => .fail e
  | .more batch rest =>
    match ExplodePayload.explode valueCount batch with
    | .error e => .fail e
    | .ok batch => .more batch (explodePayload valueCount rest)

/-- The value of its type that a decoded cell holds. -/
def LogicalType.pick : (ty : LogicalType) → ScalarValue → ty.Value
  | .int4, v => match v with | .int4 x => x | _ => 0
  | .int8, v => match v with | .int8 x => x | _ => 0
  | .text, v => match v with | .text x => x | _ => []
  | .bool, v => v = .bool true
  | .timestamp, v => match v with | .timestamp x | .timestampTz x => x | _ => 0
  | .timestampTz, v => match v with | .timestamp x | .timestampTz x => x | _ => 0
  | .date, v => match v with | .date x => x | _ => 0
  | .period, v => match v with | .period x y => (x, y) | _ => (0, 1)
  | .uuid, v => match v with | .uuid x => x | _ => List.replicate 16 0
  | .bytea, v => match v with | .bytea x => x | _ => []
  | .float8, v => match v with | .float8 x => x | _ => 0

/-- The vector of a stored column. -/
def Vector.fromColumn (ty : LogicalType) : Column → Except ExprError Vector
  | .i64 v =>
    if ty = .int8 then .ok ⟨.int8, v.map some⟩ else .error (.unsupportedColumn ty "i64")
  | .bytes cells =>
    (decodeCells ty cells).map fun values => ⟨ty, values.map (Option.map ty.pick)⟩

namespace Filter

/-- The positions that a predicate reads, ascending. -/
def referenced (predicate : Expr) : List ℕ := predicate.collectColumns.dedup.mergeSort

/-- The vector of the column at a position. -/
def vectorAt (schema : List LogicalType) (columns : List (ColumnId × Column)) (index : ℕ) :
    Except ExprError Vector :=
  match columns[index]? with
  | none => .error (.columnOutOfRange index columns.length)
  | some c =>
    match schema[index]? with
    | none => .error (.columnTypeMissing index schema.length)
    | some ty => Vector.fromColumn ty c.2

/-- Put the vectors of the referenced columns into their places. -/
def decodeReferenced (schema : List LogicalType) (columns : List (ColumnId × Column)) :
    List ℕ → List Vector → Except ExprError (List Vector)
  | [], out => .ok out
  | index :: rest, out => do
    let v ← vectorAt schema columns index
    decodeReferenced schema columns rest (out.set index v)

/-- The vector of an expression over a batch. -/
def evaluate (e : Expr) (schema : List LogicalType) (batch : Batch) : Except ExprError Vector := do
  -- a column that is not read has an empty vector in its place
  let columns ← decodeReferenced schema batch.columns (referenced e)
    (List.replicate batch.columns.length ⟨.bool, []⟩)
  evalExpr e columns batch.rows

/-- The rows of a batch for which the predicate is true. -/
def keptRows (predicate : Expr) (schema : List LogicalType) (batch : Batch) :
    Except ScanError (List ℕ) :=
  match evaluate predicate schema batch with
  | .error e => .error (.eval e)
  | .ok ⟨.bool, mask⟩ =>
    .ok ((List.range mask.length).filter fun row => mask[row]? = some (some true))
  | .ok v => .error (.eval (.notBoolean "WHERE" v.logicalType))

end Filter

/-- The kept rows of a stream, batch by batch; a batch without any is skipped. -/
def filter (predicate : Expr) (schema : List LogicalType) : Pulls → Pulls
  | .done => .done
  | .fail e => .fail e
  | .more batch rest =>
    match Filter.keptRows predicate schema batch.intoDense with
    | .error e => .fail e
    | .ok [] => filter predicate schema rest
    | .ok kept => .more (.withSelection batch.intoDense.columns kept) (filter predicate schema rest)

/-! ### One row at a time -/

/-- Slice the payload of a row. -/
def explodeRow (valueCount : ℕ) (row : StoredRow) : Except ScanError StoredRow := do
  let key ← findColumn .businessKey row
  if valueCount = 0 then .ok ((.businessKey, key) :: passthrough row)
  else
    match ← findColumn .payload row with
    | .i64 _ => .error (.missingColumn .payload)
    | .bytes cell =>
      let cells ← explodeCell valueCount cell
      let values := (List.range valueCount).map fun j =>
        (ColumnId.payload, StoredCell.bytes cells[j]?.join)
      .ok ((.businessKey, key) :: (values ++ passthrough row))

/-- The value of a stored cell. -/
def readCell (ty : LogicalType) : StoredCell → Option (Option ScalarValue)
  | .i64 v => if ty = .int8 then some (some (.int8 v)) else none
  | .bytes cell => if ty = .float8 then none else (decodeCell ty cell).toOption

/-- The type and the value of a row's cell. -/
def typedCell (schema : List LogicalType) (row : StoredRow) (i : ℕ) :
    Option (LogicalType × Option ScalarValue) := do
  let c ← row[i]?
  let ty ← schema[i]?
  let v ← readCell ty c.2
  some (ty, v)

/-- The type and the value of an expression for a stored row, unless a cell that it reads is not a
value of its type or the expression has no type. -/
def evalStored (e : Expr) (schema : List LogicalType) (row : StoredRow) :
    Option (LogicalType × Option ScalarValue) :=
  if ∀ i ∈ e.collectColumns, (typedCell schema row i).isSome then
    let cells := (List.range row.length).map (typedCell schema row)
    (exprType e (cells.map fun c => (c.map Prod.fst).getD .bool)).toOption.map fun ty =>
      (ty, evalRow e (cells.map fun c => c.bind Prod.snd))
  else none

/-- The predicate is true of the row, unless it cannot be evaluated there. -/
def rowKeeps (predicate : Expr) (schema : List LogicalType) (row : StoredRow) : Option Bool :=
  (evalStored predicate schema row).bind fun r =>
    if r.1 = .bool then some (r.2 = some (.bool true)) else none

/-- The elements that pass a test that may fail. -/
def keepTrue {α : Type} (keeps : α → Option Bool) : List α → Option (List α)
  | [] => some []
  | x :: xs => do
    let k ← keeps x
    let rest ← keepTrue keeps xs
    some (if k then x :: rest else rest)

/-! ### Rows of a batch -/

namespace Column

theorem len_take (c : Column) (rows : List ℕ) : (c.take rows).len = rows.length := by
  cases c <;> exact List.length_map _

theorem cell_take (c : Column) {rows : List ℕ} {i : ℕ} (hi : i < rows.length) :
    (c.take rows).cell i = c.cell (rows[i]?.getD 0) := by
  cases c <;> simp [take, cell, hi]

theorem len_slice (c : Column) {offset len : ℕ} (h : offset + len ≤ c.len) :
    (c.slice offset len).len = len := by
  cases c <;> simp only [slice, Column.len, List.length_take, List.length_drop] at h ⊢ <;> omega

theorem cell_slice (c : Column) {offset len i : ℕ} (hi : i < len) :
    (c.slice offset len).cell i = c.cell (offset + i) := by
  cases c <;> simp [slice, cell, List.getElem?_take_of_lt hi]

end Column

namespace Batch

variable {b : Batch}

theorem rows_intoDense (b : Batch) : b.intoDense.rows = b.rows := by
  obtain ⟨columns, rows, _ | sel⟩ := b <;> rfl

theorem selection_intoDense (b : Batch) : b.intoDense.selection = none := by
  obtain ⟨columns, rows, _ | sel⟩ := b <;> rfl

theorem intoDense_intoDense (b : Batch) : b.intoDense.intoDense = b.intoDense := by
  rw [Batch.intoDense.eq_1 b.intoDense, selection_intoDense]

theorem physicalRow_of_dense (h : b.selection = none) (i : ℕ) : b.physicalRow i = i := by
  rw [physicalRow, h]

theorem Aligned.len (h : b.Aligned) (hs : b.selection = none) :
    ∀ c ∈ b.columns, c.2.len = b.rows := by
  rwa [Aligned, hs] at h

theorem aligned_new {columns : List (ColumnId × Column)} {rows : ℕ}
    (h : ∀ c ∈ columns, c.2.len = rows) : (new columns rows).Aligned := h

theorem Aligned.intoDense (h : b.Aligned) : b.intoDense.Aligned := by
  obtain ⟨columns, rows, _ | sel⟩ := b
  · exact h
  · refine aligned_new fun c hc => ?_
    obtain ⟨c', -, rfl⟩ := List.mem_map.1 hc
    exact (c'.2.len_take sel).trans h.1

theorem row_intoDense (h : b.Aligned) {i : ℕ} (hi : i < b.rows) : b.intoDense.row i = b.row i := by
  obtain ⟨columns, rows, _ | sel⟩ := b
  · rfl
  · have hsel : i < sel.length := h.1.symm ▸ hi
    simp only [row, Batch.intoDense, new, physicalRow, List.map_map]
    refine List.map_congr_left fun c _ => ?_
    simp only [Function.comp, c.2.cell_take hsel]

theorem logicalRows_intoDense (h : b.Aligned) : b.intoDense.logicalRows = b.logicalRows := by
  rw [logicalRows, logicalRows, rows_intoDense]
  exact List.map_congr_left fun i hi => row_intoDense h (List.mem_range.1 hi)

theorem row_of_dense (h : b.selection = none) (i : ℕ) :
    b.row i = b.columns.map fun c => (c.1, c.2.cell i) := by
  rw [row, physicalRow_of_dense h]

theorem length_row (b : Batch) (i : ℕ) : (b.row i).length = b.columns.length := List.length_map _

/-- A selection of the rows of a dense batch. -/
theorem logicalRows_withSelection (h : b.selection = none) (kept : List ℕ) :
    (withSelection b.columns kept).logicalRows = kept.map b.row := by
  refine List.ext_getElem (by simp [logicalRows, withSelection]) fun i hi hi' => ?_
  have hk : i < kept.length := by simpa using hi'
  simp [logicalRows, withSelection, row, physicalRow, h, List.getElem?_eq_getElem hk]

end Batch

/-! ### Filtering -/

section FilterRows

variable {α : Type} {keeps : α → Option Bool}

theorem keepTrue_append (xs ys : List α) :
    keepTrue keeps (xs ++ ys) =
      (keepTrue keeps xs).bind fun l => (keepTrue keeps ys).map (l ++ ·) := by
  induction xs with
  | nil => simp [keepTrue]
  | cons x xs ih =>
    simp only [List.cons_append, keepTrue, ih]
    cases keeps x with
    | none => rfl
    | some k =>
      cases keepTrue keeps xs with
      | none => rfl
      | some l =>
        cases keepTrue keeps ys with
        | none => rfl
        | some l' => cases k <;> rfl

theorem keepTrue_of_forall {xs : List α} {p : α → Bool} (h : ∀ x ∈ xs, keeps x = some (p x)) :
    keepTrue keeps xs = some (xs.filter p) := by
  induction xs with
  | nil => rfl
  | cons x xs ih =>
    simp only [keepTrue, h x List.mem_cons_self, ih fun y hy => h y (List.mem_cons_of_mem _ hy)]
    cases hp : p x <;> simp [hp]

theorem keepTrue_map {β : Type} (f : β → α) (xs : List β) :
    keepTrue keeps (xs.map f) = (keepTrue (fun x => keeps (f x)) xs).map (List.map f) := by
  induction xs with
  | nil => rfl
  | cons x xs ih =>
    simp only [List.map_cons, keepTrue, ih]
    cases keeps (f x) with
    | none => rfl
    | some k =>
      cases keepTrue (fun x => keeps (f x)) xs with
      | none => rfl
      | some l => cases k <;> rfl

theorem keepTrue_eq_none {xs : List α} {x : α} (hx : x ∈ xs) (h : keeps x = none) :
    keepTrue keeps xs = none := by
  induction xs with
  | nil => cases hx
  | cons y xs ih =>
    rw [keepTrue]
    rcases List.mem_cons.1 hx with rfl | hx
    · rw [h]
      rfl
    · rw [ih hx]
      cases keeps y <;> rfl

end FilterRows

theorem logicalType_decode {ty : LogicalType} {bytes : Bytes} {v : ScalarValue}
    (h : ScalarValue.decode ty bytes = .ok v) : ty.scalar (ty.pick v) = v := by
  cases ty
  all_goals simp only [ScalarValue.decode] at h
  case text =>
    split_ifs at h
    cases h
    rfl
  case bytea =>
    cases h
    rfl
  case period =>
    cases hf : ScalarValue.fixed .period 16 bytes with
    | error e => simp [hf, bind, Except.bind] at h
    | ok raw =>
      simp only [hf, bind, Except.bind] at h
      split_ifs at h
      cases h
      rfl
  case bool =>
    cases hf : ScalarValue.fixed .bool 1 bytes with
    | error e => simp [hf, Except.map] at h
    | ok raw =>
      simp only [hf, Except.map, Except.ok.injEq] at h
      subst h
      simp [LogicalType.scalar, LogicalType.pick]
  all_goals
    generalize ScalarValue.fixed _ _ bytes = raw at h
    cases raw with
    | error e => cases h
    | ok raw =>
      cases h
      rfl

theorem decodeCell_ok {ty : LogicalType} {cell : Option Bytes} {v : Option ScalarValue}
    (h : decodeCell ty cell = .ok v) : v.map (fun x => ty.scalar (ty.pick x)) = v := by
  cases cell with
  | none =>
    cases h
    rfl
  | some bytes =>
    cases hd : ScalarValue.decode ty bytes with
    | error e => simp [decodeCell, hd, Except.map, Except.mapError] at h
    | ok x =>
      simp only [decodeCell, hd, Except.map, Except.mapError, Except.ok.injEq] at h
      subst h
      exact congrArg some (logicalType_decode hd)

/-- A column is read if each of its cells is, and then its vector holds their values. -/
theorem readCell_of_fromColumn {ty : LogicalType} {c : Column} {v : Vector}
    (h : Vector.fromColumn ty c = .ok v) :
    v.logicalType = ty ∧ v.len = c.len ∧ ∀ i < c.len, readCell ty (c.cell i) = some (v.get i) := by
  cases c with
  | i64 xs =>
    simp only [Vector.fromColumn] at h
    split_ifs at h with hty
    cases h
    refine ⟨hty.symm, List.length_map _, fun i hi => ?_⟩
    have hi : i < xs.length := hi
    simp [Column.cell, readCell, hty, Vector.get, hi, LogicalType.scalar]
  | bytes xs =>
    obtain ⟨values, hdecode, rfl⟩ := exists_of_map_ok h
    rw [decodeCells] at hdecode
    split_ifs at hdecode with hty
    have hall := mapM_eq_ok_iff_forall₂.1 hdecode
    refine ⟨rfl, ?_, fun i hi => ?_⟩
    · rw [Vector.len, List.length_map, ← hall.length_eq]
      rfl
    · have hi : i < xs.length := hi
      have hi' : i < values.length := hall.length_eq ▸ hi
      have hcell := hall.get hi hi'
      have hback := decodeCell_ok hcell
      simp only [List.get_eq_getElem] at hcell hback
      simp only [Column.cell, readCell, if_neg hty, Vector.get, List.getElem?_map,
        List.getElem?_eq_getElem hi, List.getElem?_eq_getElem hi', Option.map_some,
        Option.join_some, hcell, Except.toOption, Option.map_map]
      exact congrArg some hback.symm

/-- A column that is not read has a cell that is not. -/
theorem exists_readCell_none {ty : LogicalType} {c : Column} {e : ExprError}
    (h : Vector.fromColumn ty c = .error e) (hlen : 0 < c.len) :
    ∃ i < c.len, readCell ty (c.cell i) = none := by
  cases c with
  | i64 xs =>
    simp only [Vector.fromColumn] at h
    split_ifs at h with hty
    exact ⟨0, hlen, by simp [Column.cell, readCell, hty]⟩
  | bytes xs =>
    rw [Vector.fromColumn, decodeCells] at h
    by_cases hty : ty = .float8
    · exact ⟨0, hlen, by simp [Column.cell, readCell, hty]⟩
    · rw [if_neg hty] at h
      cases hm : xs.mapM (decodeCell ty) with
      | ok values => rw [hm] at h; cases h
      | error e' =>
        obtain ⟨x, hx, e'', hcell⟩ := exists_error_of_mapM hm
        obtain ⟨i, hi, rfl⟩ := List.getElem_of_mem hx
        exact ⟨i, hi, by simp [Column.cell, readCell, hty, hi, hcell, Except.toOption]⟩

namespace Filter

variable {predicate : Expr} {schema : List LogicalType} {b : Batch}

theorem mem_referenced {i : ℕ} : i ∈ referenced predicate ↔ i ∈ predicate.collectColumns := by
  rw [referenced, List.mem_mergeSort, List.mem_dedup]

theorem vectorAt_lt {columns : List (ColumnId × Column)} {i : ℕ} {v : Vector}
    (h : vectorAt schema columns i = .ok v) : i < columns.length := by
  by_contra hi
  rw [vectorAt, List.getElem?_eq_none (not_lt.1 hi)] at h
  cases h

/-- The decoded columns: the vectors of those that are read, the others as they were. -/
theorem decodeReferenced_ok {columns : List (ColumnId × Column)} {idxs : List ℕ}
    {out out' : List Vector} (hlen : out.length = columns.length)
    (h : decodeReferenced schema columns idxs out = .ok out') :
    out'.length = columns.length ∧ ∀ i,
      (i ∉ idxs → out'[i]? = out[i]?) ∧
        (i ∈ idxs → ∃ v, vectorAt schema columns i = .ok v ∧ out'[i]? = some v) := by
  induction idxs generalizing out with
  | nil =>
    cases h
    exact ⟨hlen, fun i => ⟨fun _ => rfl, fun hi => absurd hi List.not_mem_nil⟩⟩
  | cons index rest ih =>
    rw [decodeReferenced] at h
    cases hv : vectorAt schema columns index with
    | error e => rw [hv] at h; cases h
    | ok v =>
      rw [hv] at h
      obtain ⟨hlen', hget⟩ := ih (by rw [List.length_set, hlen]) h
      refine ⟨hlen', fun i => ⟨fun hi => ?_, fun hi => ?_⟩⟩
      · rw [List.mem_cons, not_or] at hi
        rw [(hget i).1 hi.2, List.getElem?_set_ne (Ne.symm hi.1)]
      · by_cases hr : i ∈ rest
        · exact (hget i).2 hr
        · obtain rfl : i = index := (List.mem_cons.1 hi).resolve_right hr
          refine ⟨v, hv, ?_⟩
          rw [(hget i).1 hr, List.getElem?_set_self]
          rw [hlen]
          exact vectorAt_lt hv

theorem decodeReferenced_error {columns : List (ColumnId × Column)} {idxs : List ℕ}
    {out : List Vector} {e : ExprError}
    (h : decodeReferenced schema columns idxs out = .error e) :
    ∃ i ∈ idxs, vectorAt schema columns i = .error e := by
  induction idxs generalizing out with
  | nil => cases h
  | cons index rest ih =>
    rw [decodeReferenced] at h
    cases hv : vectorAt schema columns index with
    | error e' =>
      rw [hv] at h
      cases h
      exact ⟨index, List.mem_cons_self, hv⟩
    | ok v =>
      rw [hv] at h
      obtain ⟨i, hi, hie⟩ := ih h
      exact ⟨i, List.mem_cons_of_mem _ hi, hie⟩

/-- The cell of a row whose column has a vector. -/
theorem typedCell_of_vectorAt (hb : b.Aligned) (hs : b.selection = none) {i j : ℕ}
    (hi : i < b.rows) {v : Vector} (h : vectorAt schema b.columns j = .ok v) :
    v.len = b.rows ∧ typedCell schema (b.row i) j = some (v.logicalType, v.get i) := by
  rw [vectorAt] at h
  cases hc : b.columns[j]? with
  | none => simp [hc] at h
  | some c =>
    cases ht : schema[j]? with
    | none => simp [hc, ht] at h
    | some ty =>
      simp only [hc, ht] at h
      have hlen := hb.len hs c (List.mem_of_getElem? hc)
      obtain ⟨hty, hvlen, hget⟩ := readCell_of_fromColumn h
      refine ⟨hvlen.trans hlen, ?_⟩
      have hread := hget i (hlen.symm ▸ hi)
      simp only [typedCell, Batch.row_of_dense hs, List.getElem?_map, hc, Option.map_some, ht,
        Option.bind_eq_bind, Option.bind_some, hread, hty]

theorem exists_typedCell_none (hb : b.Aligned) (hs : b.selection = none) (hpos : 0 < b.rows)
    {j : ℕ} {e : ExprError} (h : vectorAt schema b.columns j = .error e) :
    ∃ i < b.rows, typedCell schema (b.row i) j = none := by
  rw [vectorAt] at h
  cases hc : b.columns[j]? with
  | none => exact ⟨0, hpos, by simp [typedCell, Batch.row_of_dense hs, hc]⟩
  | some c =>
    cases ht : schema[j]? with
    | none => exact ⟨0, hpos, by simp [typedCell, Batch.row_of_dense hs, hc, ht]⟩
    | some ty =>
      simp only [hc, ht] at h
      have hlen := hb.len hs c (List.mem_of_getElem? hc)
      obtain ⟨i, hi, hread⟩ := exists_readCell_none h (hlen.symm ▸ hpos)
      exact ⟨i, hlen ▸ hi, by simp [typedCell, Batch.row_of_dense hs, hc, ht, hread]⟩

/-- Once the columns are decoded, evaluating for a row is evaluating over the cells of its
vectors. -/
theorem evalStored_of_decoded {e : Expr} {columns : List Vector} (hb : b.Aligned)
    (hs : b.selection = none)
    (hd : decodeReferenced schema b.columns (referenced e)
      (List.replicate b.columns.length ⟨.bool, []⟩) = .ok columns) {i : ℕ} (hi : i < b.rows) :
    (∀ j ∈ e.collectColumns, ∀ v, columns[j]? = some v → v.len = b.rows) ∧
      evalStored e schema (b.row i) =
        (exprType e (columns.map Vector.logicalType)).toOption.map fun ty =>
          (ty, evalRow e (columns.map (·.get i))) := by
  obtain ⟨hlen, hget⟩ := decodeReferenced_ok (List.length_replicate ..) hd
  have hcell : ∀ j ∈ e.collectColumns, ∃ v, columns[j]? = some v ∧ v.len = b.rows ∧
      typedCell schema (b.row i) j = some (v.logicalType, v.get i) := by
    intro j hj
    obtain ⟨v, hv, hc⟩ := (hget j).2 (mem_referenced.2 hj)
    obtain ⟨hvlen, htyped⟩ := typedCell_of_vectorAt hb hs hi hv
    exact ⟨v, hc, hvlen, htyped⟩
  have hlt : ∀ {j v}, columns[j]? = some v → j < (b.row i).length := by
    intro j v hv
    rw [Batch.length_row, ← hlen]
    exact (List.getElem?_eq_some_iff.1 hv).1
  have hguard : ∀ j ∈ e.collectColumns, (typedCell schema (b.row i) j).isSome := by
    intro j hj
    obtain ⟨v, -, -, htyped⟩ := hcell j hj
    rw [htyped]
    rfl
  -- types and values agree at the positions that are read
  have htype : exprType e (((List.range (b.row i).length).map (typedCell schema (b.row i))).map
      fun c => (c.map Prod.fst).getD .bool) = exprType e (columns.map Vector.logicalType) := by
    refine exprType_congr (by simp [Batch.length_row, hlen]) fun j hj => ?_
    obtain ⟨v, hv, -, htyped⟩ := hcell j hj
    simp [hv, htyped, hlt hv]
  have hvalue : evalRow e (((List.range (b.row i).length).map (typedCell schema (b.row i))).map
      fun c => c.bind Prod.snd) = evalRow e (columns.map (·.get i)) := by
    refine evalRow_congr fun j hj => ?_
    obtain ⟨v, hv, -, htyped⟩ := hcell j hj
    simp [hv, htyped, hlt hv]
  refine ⟨fun j hj v hv => ?_, ?_⟩
  · obtain ⟨w, hw, hwlen, -⟩ := hcell j hj
    rw [hw] at hv
    cases hv
    exact hwlen
  · simp only [evalStored, if_pos hguard, htype, hvalue]

/-- **Evaluating over a batch** gives at each position the value for the row there, and fails only
if it does for some row. -/
theorem evaluate_spec (e : Expr) (schema : List LogicalType) (hb : b.Aligned)
    (hs : b.selection = none) (hpos : 0 < b.rows) :
    (∃ v, evaluate e schema b = .ok v ∧ v.len = b.rows ∧
        ∀ i < b.rows, evalStored e schema (b.row i) = some (v.logicalType, v.get i)) ∨
      ∃ err, evaluate e schema b = .error err ∧
        ∃ i < b.rows, evalStored e schema (b.row i) = none := by
  rw [evaluate]
  cases hd : decodeReferenced schema b.columns (referenced e)
    (List.replicate b.columns.length ⟨.bool, []⟩) with
  | error err =>
    obtain ⟨j, hj, hv⟩ := decodeReferenced_error hd
    obtain ⟨i, hi, hnone⟩ := exists_typedCell_none hb hs hpos hv
    refine .inr ⟨err, rfl, i, hi, if_neg fun hall => ?_⟩
    have := hall j (mem_referenced.1 hj)
    rw [hnone] at this
    cases this
  | ok columns =>
    have hrow := fun i (hi : i < b.rows) => evalStored_of_decoded hb hs hd hi
    rcases evalExpr_yields e (hrow 0 hpos).1 with ⟨err, hr, ht⟩ | ⟨v, hr, ht, hv⟩
    · refine .inr ⟨err, hr, 0, hpos, ?_⟩
      rw [(hrow 0 hpos).2, ht]
      rfl
    · refine .inl ⟨v, hr, hv.len, fun i hi => ?_⟩
      rw [(hrow i hi).2, ht, hv.get i hi]
      rfl

/-- **A filter keeps the rows of a batch for which the predicate is true**, in order, and fails if
it cannot be evaluated for one of them. -/
theorem keptRows_spec (predicate : Expr) (schema : List LogicalType) (hb : b.Aligned)
    (hs : b.selection = none) (hpos : 0 < b.rows) :
    (keptRows predicate schema b).toOption.map (List.map b.row) =
      keepTrue (rowKeeps predicate schema) b.logicalRows := by
  have hmem : ∀ {i}, i < b.rows → b.row i ∈ b.logicalRows := fun hi =>
    List.mem_map_of_mem (List.mem_range.2 hi)
  rw [keptRows]
  rcases evaluate_spec predicate schema hb hs hpos with
    ⟨⟨ty, mask⟩, hev, hlen, hrow⟩ | ⟨e, hev, i, hi, hnone⟩
  · rw [hev]
    by_cases hty : ty = .bool
    · subst hty
      have hmask : mask.length = b.rows := hlen
      rw [Batch.logicalRows, keepTrue_map, keepTrue_of_forall (p := fun i =>
        decide (mask[i]? = some (some true)))]
      · simp [Except.toOption, hmask]
      · intro i hi
        have hi := List.mem_range.1 hi
        have hm : i < mask.length := hmask ▸ hi
        rw [rowKeeps, hrow i hi, Vector.get, List.getElem?_eq_getElem hm]
        cases mask[i] with
        | none => rfl
        | some x => simp [LogicalType.scalar]
    · rw [keepTrue_eq_none (hmem hpos)]
      · cases ty
        case bool => exact absurd rfl hty
        all_goals rfl
      · rw [rowKeeps, hrow 0 hpos]
        exact if_neg hty
  · rw [hev]
    refine (keepTrue_eq_none (hmem hi) ?_).symm
    rw [rowKeeps, hnone]
    rfl

end Filter

theorem toOption_bind_append (d : Except ScanError (List StoredRow)) (l : List StoredRow) :
    (do let rows ← d; Except.ok (l ++ rows) : Except ScanError (List StoredRow)).toOption =
      d.toOption.map (l ++ ·) := by
  cases d <;> rfl

/-- **The rows that come out of a filter** are the rows that go in for which the predicate is true,
in order, whatever the batches and their selections are. -/
theorem drain_filter {predicate : Expr} {schema : List LogicalType} {s : Pulls} (h : s.Sound) :
    (filter predicate schema s).drain.toOption =
      s.drain.toOption.bind (keepTrue (rowKeeps predicate schema)) := by
  induction s with
  | done => rfl
  | fail e => rfl
  | more b rest ih =>
    obtain ⟨hb, hpos, hrest⟩ := h
    have hspec := Filter.keptRows_spec predicate schema hb.intoDense b.selection_intoDense
      (b.rows_intoDense.symm ▸ hpos)
    rw [Batch.logicalRows_intoDense hb] at hspec
    have hdrain : (Pulls.more b rest).drain.toOption.bind
        (keepTrue (rowKeeps predicate schema)) =
        (keepTrue (rowKeeps predicate schema) b.logicalRows).bind fun l =>
          (filter predicate schema rest).drain.toOption.map (l ++ ·) := by
      rw [Pulls.drain, toOption_bind_append, ih hrest]
      cases rest.drain.toOption with
      | none => cases keepTrue (rowKeeps predicate schema) b.logicalRows <;> rfl
      | some rows => exact keepTrue_append _ _
    rw [hdrain, ← hspec, filter]
    cases hk : Filter.keptRows predicate schema b.intoDense with
    | error e => rfl
    | ok kept =>
      cases kept with
      | nil =>
        simp only [Except.toOption, Option.map_some, Option.bind_some, List.map_nil,
          List.nil_append, Option.map_id']
      | cons k ks =>
        simp only [Pulls.drain, toOption_bind_append,
          Batch.logicalRows_withSelection b.selection_intoDense]
        rfl

/-! ### Exploding -/

theorem findColumn_map {α β : Type} (id : ColumnId) (f : α → β) (columns : List (ColumnId × α)) :
    findColumn id (columns.map fun c => (c.1, f c.2)) = (findColumn id columns).map f := by
  rw [findColumn, findColumn, List.find?_map]
  simp only [Function.comp_def]
  cases columns.find? (·.1 = id) <;> rfl

theorem passthrough_map {α β : Type} (f : α → β) (columns : List (ColumnId × α)) :
    passthrough (columns.map fun c => (c.1, f c.2)) =
      (passthrough columns).map fun c => (c.1, f c.2) := by
  rw [passthrough, passthrough, List.filter_map]
  rfl

theorem mem_of_findColumn {α : Type} {id : ColumnId} {columns : List (ColumnId × α)} {c : α}
    (h : findColumn id columns = .ok c) : ∃ k, (k, c) ∈ columns := by
  rw [findColumn] at h
  cases hf : columns.find? (·.1 = id) with
  | none => rw [hf] at h; cases h
  | some x =>
    rw [hf] at h
    cases h
    exact ⟨x.1, List.mem_of_find?_eq_some hf⟩

namespace ExplodePayload

variable {b : Batch} {valueCount : ℕ}

theorem findColumn_row (hs : b.selection = none) (id : ColumnId) (i : ℕ) :
    findColumn id (b.row i) = (findColumn id b.columns).map (Column.cell i) := by
  rw [Batch.row_of_dense hs, findColumn_map]

theorem passthrough_row (hs : b.selection = none) (i : ℕ) :
    passthrough (b.row i) = (passthrough b.columns).map fun c => (c.1, c.2.cell i) := by
  rw [Batch.row_of_dense hs, passthrough_map]

theorem len_of_findColumn (hb : b.Aligned) (hs : b.selection = none) {id : ColumnId} {c : Column}
    (h : findColumn id b.columns = .ok c) : c.len = b.rows := by
  obtain ⟨k, hmem⟩ := mem_of_findColumn h
  exact hb.len hs _ hmem

theorem intoDense_of_dense (hs : b.selection = none) : b.intoDense = b := by
  rw [Batch.intoDense, hs]

/-- An exploded batch has the exploded rows. -/
theorem explode_ok (hb : b.Aligned) (hs : b.selection = none) {b' : Batch}
    (h : explode valueCount b = .ok b') :
    b'.Aligned ∧ b'.rows = b.rows ∧
      ∀ i < b.rows, explodeRow valueCount (b.row i) = .ok (b'.row i) := by
  rw [explode, intoDense_of_dense hs] at h
  have hlenPass : ∀ c ∈ passthrough b.columns, c.2.len = b.rows := fun c hc =>
    hb.len hs c (List.mem_of_mem_filter hc)
  cases hk : findColumn .businessKey b.columns with
  | error e => rw [hk] at h; cases h
  | ok key =>
    have hlenKey := len_of_findColumn hb hs hk
    simp only [hk, bind, Except.bind] at h
    by_cases hn : valueCount = 0
    · rw [if_pos hn] at h
      cases h
      refine ⟨Batch.aligned_new fun c hc => ?_, rfl, fun i _ => ?_⟩
      · rcases List.mem_cons.1 hc with rfl | hc
        · exact hlenKey
        · exact hlenPass c hc
      · rw [explodeRow, findColumn_row hs, hk, passthrough_row hs]
        simp [hn, bind, Except.bind, Except.map, Batch.new, Batch.row, Batch.physicalRow]
    · rw [if_neg hn] at h
      cases hp : findColumn .payload b.columns with
      | error e => rw [hp] at h; cases h
      | ok payload =>
        have hlenPay := len_of_findColumn hb hs hp
        cases payload with
        | i64 xs => rw [hp] at h; cases h
        | bytes xs =>
          simp only [hp] at h
          cases hm : xs.mapM (explodeCell valueCount) with
          | error e => rw [hm] at h; cases h
          | ok decoded =>
            rw [hm] at h
            cases h
            have hall := mapM_eq_ok_iff_forall₂.1 hm
            have hlend : decoded.length = b.rows := hall.length_eq ▸ hlenPay
            refine ⟨Batch.aligned_new fun c hc => ?_, rfl, fun i hi => ?_⟩
            · rcases List.mem_cons.1 hc with rfl | hc
              · exact hlenKey
              · rcases List.mem_append.1 hc with hc | hc
                · obtain ⟨j, -, rfl⟩ := List.mem_map.1 hc
                  simpa [Column.len] using hlend
                · exact hlenPass c hc
            · have hlenx : xs.length = b.rows := hlenPay
              have hix : i < xs.length := hlenx.symm ▸ hi
              have hid : i < decoded.length := hlend.symm ▸ hi
              have hcell := hall.get hix hid
              simp only [List.get_eq_getElem] at hcell
              rw [explodeRow, findColumn_row hs, hk, findColumn_row hs, hp, passthrough_row hs]
              simp [hn, bind, Except.bind, Except.map, Column.cell, Batch.new, Batch.row,
                Batch.physicalRow, hix, hid, hcell]

/-- A batch that cannot be exploded has a row that cannot. -/
theorem explode_error (hb : b.Aligned) (hs : b.selection = none) (hpos : 0 < b.rows)
    {e : ScanError} (h : explode valueCount b = .error e) :
    ∃ i < b.rows, ∃ e', explodeRow valueCount (b.row i) = .error e' := by
  rw [explode, intoDense_of_dense hs] at h
  cases hk : findColumn .businessKey b.columns with
  | error e' =>
    refine ⟨0, hpos, e', ?_⟩
    rw [explodeRow, findColumn_row hs, hk]
    rfl
  | ok key =>
    simp only [hk, bind, Except.bind] at h
    by_cases hn : valueCount = 0
    · rw [if_pos hn] at h
      cases h
    · rw [if_neg hn] at h
      cases hp : findColumn .payload b.columns with
      | error e' =>
        refine ⟨0, hpos, e', ?_⟩
        rw [explodeRow, findColumn_row hs, hk, findColumn_row hs, hp]
        simp [hn, bind, Except.bind, Except.map]
      | ok payload =>
        have hlenPay := len_of_findColumn hb hs hp
        cases payload with
        | i64 xs =>
          refine ⟨0, hpos, .missingColumn .payload, ?_⟩
          rw [explodeRow, findColumn_row hs, hk, findColumn_row hs, hp]
          simp [hn, bind, Except.bind, Except.map, Column.cell]
        | bytes xs =>
          simp only [hp] at h
          cases hm : xs.mapM (explodeCell valueCount) with
          | ok decoded => rw [hm] at h; cases h
          | error e' =>
            obtain ⟨x, hx, e'', hcell⟩ := exists_error_of_mapM hm
            obtain ⟨i, hi, rfl⟩ := List.getElem_of_mem hx
            refine ⟨i, hlenPay ▸ hi, e'', ?_⟩
            rw [explodeRow, findColumn_row hs, hk, findColumn_row hs, hp]
            simp [hn, bind, Except.bind, Except.map, Column.cell, hi, hcell]

/-- **Exploding a batch** is exploding its rows. -/
theorem explode_spec (valueCount : ℕ) (hb : b.Aligned) (hs : b.selection = none)
    (hpos : 0 < b.rows) :
    (explode valueCount b).toOption.map Batch.logicalRows =
        (b.logicalRows.mapM (explodeRow valueCount)).toOption ∧
      ∀ b', explode valueCount b = .ok b' → b'.Aligned ∧ b'.rows = b.rows := by
  cases hx : explode valueCount b with
  | error e =>
    obtain ⟨i, hi, e', he'⟩ := explode_error hb hs hpos hx
    refine ⟨(toOption_mapM_none (List.mem_map_of_mem (List.mem_range.2 hi)) he').symm, ?_⟩
    intro b' h
    cases h
  | ok b' =>
    obtain ⟨hb', hrows, hrow⟩ := explode_ok hb hs hx
    refine ⟨?_, fun b'' h => ?_⟩
    · have hall : b.logicalRows.mapM (explodeRow valueCount) = .ok b'.logicalRows := by
        rw [Batch.logicalRows, List.mapM_map, Batch.logicalRows, hrows]
        exact mapM_of_forall fun i hi => hrow i (List.mem_range.1 hi)
      rw [hall]
      rfl
    · cases h
      exact ⟨hb', hrows⟩

end ExplodePayload

/-- **An exploded stream** has the exploded rows, whatever the batches are. -/
theorem drain_explodePayload (valueCount : ℕ) {s : Pulls} (h : s.Sound) :
    (explodePayload valueCount s).Sound ∧
      (explodePayload valueCount s).drain.toOption =
        s.drain.toOption.bind fun rows => (rows.mapM (explodeRow valueCount)).toOption := by
  induction s with
  | done => exact ⟨trivial, rfl⟩
  | fail e => exact ⟨trivial, rfl⟩
  | more b rest ih =>
    obtain ⟨hb, hpos, hrest⟩ := h
    obtain ⟨hsound, hdrain⟩ := ih hrest
    obtain ⟨hspec, hkeep⟩ := ExplodePayload.explode_spec valueCount hb.intoDense
      b.selection_intoDense (b.rows_intoDense.symm ▸ hpos)
    have hdense : ExplodePayload.explode valueCount b.intoDense =
        ExplodePayload.explode valueCount b := by
      rw [ExplodePayload.explode, ExplodePayload.explode, Batch.intoDense_intoDense]
    rw [Batch.logicalRows_intoDense hb, hdense] at hspec
    rw [hdense, b.rows_intoDense] at hkeep
    -- the rows of the whole stream, from those of the first batch
    have hall : ((Pulls.more b rest).drain.toOption.bind fun rows =>
        (rows.mapM (explodeRow valueCount)).toOption) =
        (b.logicalRows.mapM (explodeRow valueCount)).toOption.bind fun l =>
          (explodePayload valueCount rest).drain.toOption.map (l ++ ·) := by
      rw [Pulls.drain, toOption_bind_append, hdrain]
      cases rest.drain.toOption with
      | none => cases (b.logicalRows.mapM (explodeRow valueCount)).toOption <;> rfl
      | some rows =>
        simp only [Option.map_some, Option.bind_some, List.mapM_append]
        cases b.logicalRows.mapM (explodeRow valueCount) with
        | error e => rfl
        | ok l => cases rows.mapM (explodeRow valueCount) <;> rfl
    rw [hall, ← hspec, explodePayload]
    cases hx : ExplodePayload.explode valueCount b with
    | error e => exact ⟨trivial, rfl⟩
    | ok b' =>
      obtain ⟨hb', hrows⟩ := hkeep b' hx
      refine ⟨⟨hb', hrows.symm ▸ hpos, hsound⟩, ?_⟩
      simp only [Pulls.drain, toOption_bind_append]
      rfl

/-! ### Windows -/

namespace ScanSource

/-- The windows of a dense batch have its rows. -/
theorem drain_windows {b : Batch} (hb : b.Aligned) (hs : b.selection = none) (batchRows : ℕ)
    (cursor : ℕ) :
    (windows b batchRows cursor).Sound ∧
      (windows b batchRows cursor).drain = .ok (b.logicalRows.drop cursor) := by
  fun_induction windows b batchRows cursor with
  | case1 cursor hle =>
    refine ⟨trivial, ?_⟩
    rw [List.drop_eq_nil_of_le (by simpa [Batch.logicalRows] using hle)]
    rfl
  | case2 cursor hlt len ih =>
    obtain ⟨hsound, hdrain⟩ := ih
    have hlen : cursor + len ≤ b.rows := by omega
    have hpos : 0 < len := by omega
    have hwindow :
        (Batch.new (b.columns.map fun c => (c.1, c.2.slice cursor len)) len).logicalRows =
          (b.logicalRows.drop cursor).take len := by
      refine List.ext_getElem (by simp [Batch.logicalRows, Batch.new]; omega) fun i hi hi' => ?_
      have hil : i < len := by simpa [Batch.logicalRows, Batch.new] using hi
      simp only [Batch.logicalRows, Batch.new, List.getElem_map, List.getElem_range,
        List.getElem_take, List.getElem_drop, Batch.row_of_dense hs]
      rw [Batch.row_of_dense rfl, List.map_map]
      refine List.map_congr_left fun c _ => ?_
      simp only [Function.comp, c.2.cell_slice hil]
    refine ⟨⟨Batch.aligned_new fun c hc => ?_, hpos, hsound⟩, ?_⟩
    · obtain ⟨c', hc', rfl⟩ := List.mem_map.1 hc
      exact c'.2.len_slice (by rw [hb.len hs c' hc']; exact hlen)
    · rw [Pulls.drain, hdrain, hwindow]
      refine congrArg Except.ok ?_
      rw [← List.drop_drop, List.take_append_drop]

end ScanSource

/-- **The rows of a scan** are those it resolves, whatever the size of the batches is. -/
theorem drain_scanSource (batchRows : ℕ) {scan : Except ScanError Batch}
    (h : ∀ b, scan = .ok b → b.Aligned ∧ b.selection = none) :
    (scanSource batchRows scan).Sound ∧
      (scanSource batchRows scan).drain = scan.map Batch.logicalRows := by
  cases scan with
  | error e => exact ⟨trivial, rfl⟩
  | ok b =>
    obtain ⟨hb, hs⟩ := h b rfl
    exact ScanSource.drain_windows hb hs batchRows 0

/-! ### The pipeline -/

/-- `k < 10 / v`. -/
def belowQuotient : Expr := .compare .lt (.column 0) (.arith .div (.literal (.int4 10)) (.column 1))

/-- Keys `1`, `2`, `3` with the values `5`, `NULL`, `0`. -/
def threeRows : Batch :=
  .new [(.businessKey, .bytes [some [1, 0, 0, 0], some [2, 0, 0, 0], some [3, 0, 0, 0]]),
    (.payload, .bytes [some [5, 0, 0, 0], none, some [0, 0, 0, 0]])] 3

end SteleDb
