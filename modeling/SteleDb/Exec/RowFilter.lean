import SteleDb.Exec.Operator
import SteleDb.Exec.ScalarOrder

/-!
# Expressions over rows

Where the rows of a query are already there, encoded cell by cell, a predicate or a computed column
is evaluated over them as it is over a batch: the columns that the expression reads are decoded, the
others stay empty, and the evaluator runs once.

`evalColumns_ok` and `evalColumns_of_reads` say when that succeeds and with which values, row by
row; so a filter of rows keeps each row by its own cells (`rowsPassingFilter_eq`), and what can be
evaluated over some rows can be evaluated over a part of them.
-/

namespace SteleDb

/-- What a `WHERE` comes to. -/
inductive FilterPlan (π : Type*) where
  /-- There is none, or it is constant and true: every row is kept. -/
  | keepAll
  /-- It is constant and false. -/
  | empty
  /-- A predicate decides. -/
  | predicate (p : π)

/-- Filter rows; `passing` gives those that a predicate passes. -/
def FilterPlan.filterRows {π β ε : Type*} (passing : π → List β → Except ε (List β))
    (plan : FilterPlan π) (rows : List β) : Except ε (List β) :=
  match plan with
  | .empty => .ok []
  | .keepAll => .ok rows
  | .predicate p => passing p rows

namespace RowFilter

/-- A cell of a row; a short row reads as `NULL`. -/
def cell (i : ℕ) (row : Cells) : Option Bytes := row[i]?.join

/-- Decode a column of the rows. -/
def keyVector (rows : List Cells) (col : ℕ) (ty : LogicalType) : Except ScanError Vector :=
  (Vector.fromColumn ty (.bytes (rows.map (cell col)))).mapError .eval

/-- Decode the columns at some positions, each into its place; a position that the schema has not is
passed over. -/
def decodeColumns (schema : List LogicalType) (rows : List Cells) :
    List ℕ → List Vector → Except ScanError (List Vector)
  | [], out => .ok out
  | position :: rest, out =>
    match schema[position]? with
    | none => decodeColumns schema rows rest out
    | some ty => do
      let v ← keyVector rows position ty
      decodeColumns schema rows rest (out.set position v)

/-- Evaluate an expression over the rows. -/
def evalColumns (e : Expr) (schema : List LogicalType) (rows : List Cells) :
    Except ScanError Vector := do
  -- a column that is not read has an empty vector in its place
  let columns ← decodeColumns schema rows (Filter.referenced e)
    (List.replicate schema.length ⟨.bool, []⟩)
  (evalExpr e columns rows.length).mapError .eval

/-- The mask of a predicate. -/
def predicateMask : Vector → Except ScanError (List (Option Bool))
  | ⟨.bool, mask⟩ => .ok mask
  | other => .error (.eval (.notBoolean "WHERE" other.logicalType))

/-- The rows for which a predicate is true. -/
def rowsPassingFilter (predicate : Expr) (schema : List LogicalType) (rows : List Cells) :
    Except ScanError (List Cells) :=
  if rows = [] then .ok rows
  else do
    let mask ← predicateMask (← evalColumns predicate schema rows)
    .ok ((rows.zip mask).filterMap fun e => if e.2 = some true then some e.1 else none)

/-- The cells of a computed column. -/
def evalProjectionScalar (scalar : Expr) (schema : List LogicalType) (rows : List Cells) :
    Except ScanError (List (Option Bytes)) :=
  if rows = [] then .ok []
  else do
    let v ← evalColumns scalar schema rows
    .ok ((List.range rows.length).map fun i => (v.get i).map ScalarValue.encode)

/-! ### One cell -/

/-- The value of a cell, if it can be read. -/
def value (ty : LogicalType) (i : ℕ) (row : Cells) : Option ScalarValue :=
  (decodeCell ty (cell i row)).toOption.join

/-- The values of a row. -/
def values (schema : List LogicalType) (row : Cells) : List (Option ScalarValue) :=
  schema.mapIdx fun i ty => value ty i row

/-- A column of the rows can be read. -/
def ReadsColumn (ty : LogicalType) (i : ℕ) (rows : List Cells) : Prop :=
  ty ≠ .float8 ∧ ∀ row ∈ rows, decodeCell ty (cell i row) = .ok (value ty i row)

/-- The vector of a column. -/
def columnVector (ty : LogicalType) (i : ℕ) (rows : List Cells) : Vector :=
  ⟨ty, rows.map fun row => (value ty i row).map ty.pick⟩

theorem ReadsColumn.mono {ty : LogicalType} {i : ℕ} {rows rows' : List Cells}
    (h : ReadsColumn ty i rows) (hsub : ∀ row ∈ rows', row ∈ rows) : ReadsColumn ty i rows' :=
  ⟨h.1, fun row hr => h.2 row (hsub row hr)⟩

theorem value_eq_some {ty : LogicalType} {i : ℕ} {row : Cells} {v : ScalarValue} :
    value ty i row = some v ↔
      ∃ bytes, cell i row = some bytes ∧ ScalarValue.decode ty bytes = .ok v := by
  rw [value]
  cases cell i row with
  | none => simp [decodeCell, Except.toOption]
  | some bytes =>
    cases hd : ScalarValue.decode ty bytes with
    | error e => simp [decodeCell, hd, Except.map, Except.mapError, Except.toOption]
    | ok w => simp [decodeCell, hd, Except.map, Except.mapError, Except.toOption]

theorem fits_value {ty : LogicalType} {i : ℕ} {row : Cells} {v : ScalarValue}
    (h : value ty i row = some v) : v.Fits := by
  obtain ⟨bytes, -, hd⟩ := value_eq_some.1 h
  exact ScalarValue.fits_decode hd

theorem scalar_pick_value {ty : LogicalType} {i : ℕ} {row : Cells} {v : ScalarValue}
    (h : value ty i row = some v) : ty.scalar (ty.pick v) = v := by
  obtain ⟨bytes, -, hd⟩ := value_eq_some.1 h
  exact logicalType_decode hd

theorem logicalType_value {ty : LogicalType} {i : ℕ} {row : Cells} {v : ScalarValue}
    (h : value ty i row = some v) : v.logicalType = ty := by
  rw [← scalar_pick_value h, logicalType_scalar]

@[simp] theorem len_columnVector (ty : LogicalType) (i : ℕ) (rows : List Cells) :
    (columnVector ty i rows).len = rows.length := List.length_map _

theorem get_columnVector {ty : LogicalType} {i j : ℕ} {rows : List Cells} {row : Cells}
    (h : rows[j]? = some row) : (columnVector ty i rows).get j = value ty i row := by
  rw [columnVector, Vector.get_mk_map, h, Option.bind_some, Option.map_map]
  cases hv : value ty i row with
  | none => rfl
  | some v => exact congrArg some (scalar_pick_value hv)

/-- A column is decoded if each of its cells can be. -/
theorem keyVector_eq_ok {rows : List Cells} {col : ℕ} {ty : LogicalType} {v : Vector} :
    keyVector rows col ty = .ok v ↔ ReadsColumn ty col rows ∧ v = columnVector ty col rows := by
  have hread : ∀ values : List (Option ScalarValue),
      (rows.map (cell col)).mapM (decodeCell ty) = .ok values ↔
        (∀ row ∈ rows, decodeCell ty (cell col row) = .ok (value ty col row)) ∧
          values = rows.map (value ty col) := by
    intro values
    rw [mapM_eq_ok_iff_forall₂, List.forall₂_map_left_iff]
    constructor
    · intro h
      have hval : List.Forall₂ (fun row x => decodeCell ty (cell col row) = .ok (value ty col row) ∧
          x = value ty col row) rows values := by
        refine h.imp fun row x hx => ?_
        rw [value, hx]
        exact ⟨rfl, rfl⟩
      refine ⟨fun row hrow => ?_, ?_⟩
      · obtain ⟨j, hj, rfl⟩ := List.getElem_of_mem hrow
        exact (hval.get hj (hval.length_eq ▸ hj)).1
      · rw [← List.forall₂_eq_eq_eq, List.forall₂_map_right_iff]
        exact (hval.imp fun row x hx => hx.2).flip
    · rintro ⟨hcells, rfl⟩
      rw [List.forall₂_map_right_iff, List.forall₂_same]
      exact hcells
  rw [keyVector, Vector.fromColumn, decodeCells]
  by_cases hty : ty = .float8
  · rw [if_pos hty]
    simp [Except.map, Except.mapError, ReadsColumn, hty]
  · rw [if_neg hty]
    cases hm : (rows.map (cell col)).mapM (decodeCell ty) with
    | error e =>
      refine ⟨fun h => by simp [Except.map, Except.mapError] at h, fun h => ?_⟩
      rw [(hread _).2 ⟨h.1.2, rfl⟩] at hm
      cases hm
    | ok values =>
      obtain ⟨hcells, rfl⟩ := (hread values).1 hm
      simp only [Except.map, Except.mapError, Except.ok.injEq]
      rw [List.map_map]
      exact ⟨fun h => ⟨⟨hty, hcells⟩, h.symm⟩, fun h => h.2.symm⟩

/-! ### The columns of an expression -/

variable {schema : List LogicalType} {rows : List Cells}

/-- What is put into places: the vectors of the columns there, the others stay. -/
theorem decodeColumns_ok {positions : List ℕ} {out columns : List Vector}
    (hlen : out.length = schema.length)
    (h : decodeColumns schema rows positions out = .ok columns) :
    columns.length = schema.length ∧
      (∀ j ∈ positions, ∀ ty, schema[j]? = some ty → ReadsColumn ty j rows) ∧
      ∀ j ty, schema[j]? = some ty →
        columns[j]? = if j ∈ positions then some (columnVector ty j rows) else out[j]? := by
  induction positions generalizing out with
  | nil =>
    cases h
    exact ⟨hlen, by simp, by simp⟩
  | cons position rest ih =>
    rw [decodeColumns] at h
    cases ht : schema[position]? with
    | none =>
      simp only [ht] at h
      obtain ⟨hl, hr, hc⟩ := ih hlen h
      have hne : ∀ {j ty}, schema[j]? = some ty → j ≠ position := by
        rintro j ty hj rfl
        rw [ht] at hj
        cases hj
      refine ⟨hl, fun j hj ty hty => ?_, fun j ty hty => ?_⟩
      · rcases List.mem_cons.1 hj with rfl | hj
        · exact absurd rfl (hne hty)
        · exact hr j hj ty hty
      · rw [hc j ty hty]
        simp [hne hty]
    | some pty =>
      simp only [ht] at h
      obtain ⟨v, hv, h⟩ := exists_of_bind_ok h
      obtain ⟨hreads, rfl⟩ := keyVector_eq_ok.1 hv
      obtain ⟨hl, hr, hc⟩ := ih ((List.length_set ..).trans hlen) h
      refine ⟨hl, fun j hj ty hty => ?_, fun j ty hty => ?_⟩
      · rcases List.mem_cons.1 hj with rfl | hj
        · rw [ht] at hty
          cases hty
          exact hreads
        · exact hr j hj ty hty
      · rw [hc j ty hty]
        by_cases hmem : j ∈ rest
        · rw [if_pos hmem, if_pos (List.mem_cons_of_mem _ hmem)]
        · rw [if_neg hmem]
          by_cases hj : j = position
          · subst hj
            rw [ht] at hty
            cases hty
            rw [if_pos List.mem_cons_self, List.getElem?_set_self]
            exact hlen ▸ (List.getElem?_eq_some_iff.1 ht).1
          · rw [if_neg (by simp [hj, hmem]), List.getElem?_set_ne (Ne.symm hj)]

theorem decodeColumns_of_reads (positions : List ℕ) (out : List Vector)
    (h : ∀ j ∈ positions, ∀ ty, schema[j]? = some ty → ReadsColumn ty j rows) :
    ∃ columns, decodeColumns schema rows positions out = .ok columns := by
  induction positions generalizing out with
  | nil => exact ⟨out, rfl⟩
  | cons position rest ih =>
    rw [decodeColumns]
    have hrest : ∀ j ∈ rest, ∀ ty, schema[j]? = some ty → ReadsColumn ty j rows := fun j hj =>
      h j (List.mem_cons_of_mem _ hj)
    cases ht : schema[position]? with
    | none => exact ih _ hrest
    | some ty =>
      simp only [keyVector_eq_ok.2 ⟨h position List.mem_cons_self ty ht, rfl⟩, bind, Except.bind]
      exact ih _ hrest

/-- The columns that an expression reads can be read. -/
def ReadsAll (e : Expr) (schema : List LogicalType) (rows : List Cells) : Prop :=
  ∀ j ∈ e.collectColumns, ∀ ty, schema[j]? = some ty → ReadsColumn ty j rows

theorem ReadsAll.mono {e : Expr} {rows' : List Cells} (h : ReadsAll e schema rows)
    (hsub : ∀ row ∈ rows', row ∈ rows) : ReadsAll e schema rows' :=
  fun j hj ty hty => (h j hj ty hty).mono hsub

/-- What the decoded columns say about an expression. -/
theorem evalExpr_decoded {e : Expr} {columns : List Vector}
    (h : decodeColumns schema rows (Filter.referenced e)
      (List.replicate schema.length ⟨.bool, []⟩) = .ok columns) :
    ReadsAll e schema rows ∧
      Yields (evalExpr e columns rows.length) (exprType e schema) rows.length fun i =>
        (rows[i]?).elim none fun row => evalRow e (values schema row) := by
  obtain ⟨hlen, hreads, hcols⟩ := decodeColumns_ok (List.length_replicate ..) h
  have hmem : ∀ {j}, j ∈ e.collectColumns → j ∈ Filter.referenced e := Filter.mem_referenced.2
  have hcol : ∀ j ∈ e.collectColumns, columns[j]? =
      schema[j]?.map fun ty => columnVector ty j rows := by
    intro j hj
    cases ht : schema[j]? with
    | none => exact List.getElem?_eq_none (hlen ▸ List.getElem?_eq_none_iff.1 ht)
    | some ty => rw [hcols j ty ht, if_pos (hmem hj), Option.map_some]
  refine ⟨fun j hj => hreads j (hmem hj), ?_⟩
  have htype : exprType e (columns.map Vector.logicalType) = exprType e schema := by
    refine exprType_congr (by simp [hlen]) fun j hj => ?_
    rw [List.getElem?_map, hcol j hj, Option.map_map]
    exact Option.map_id'
  rw [← htype]
  refine (evalExpr_yields e fun j hj v hv => ?_).congr fun i hi => ?_
  · rw [hcol j hj] at hv
    obtain ⟨ty, -, rfl⟩ := Option.map_eq_some_iff.1 hv
    exact len_columnVector ..
  · obtain ⟨row, hrow⟩ : ∃ row, rows[i]? = some row := ⟨_, List.getElem?_eq_getElem hi⟩
    rw [hrow, Option.elim_some]
    refine evalRow_congr fun j hj => ?_
    rw [List.getElem?_map, hcol j hj, values, List.getElem?_mapIdx, Option.map_map]
    refine Option.map_congr fun ty _ => ?_
    exact get_columnVector hrow

theorem evalRow_column {i : ℕ} {ty : LogicalType} (h : schema[i]? = some ty) (row : Cells) :
    evalRow (.column i) (values schema row) = value ty i row := by
  rw [evalRow, values, List.getElem?_mapIdx, h]
  rfl

/-- **The values of an expression over rows** are its values on the rows, one by one. -/
theorem evalColumns_ok {e : Expr} {v : Vector} (h : evalColumns e schema rows = .ok v) :
    ReadsAll e schema rows ∧ exprType e schema = .ok v.logicalType ∧ v.len = rows.length ∧
      ∀ i row, rows[i]? = some row → v.get i = evalRow e (values schema row) := by
  obtain ⟨columns, hd, h⟩ := exists_of_bind_ok h
  have h := exists_of_mapError_ok h
  obtain ⟨hreads, ⟨e', hr, -⟩ | ⟨w, hr, ht, hw⟩⟩ := evalExpr_decoded hd
  · rw [hr] at h
    cases h
  · rw [hr] at h
    cases h
    refine ⟨hreads, ht, hw.len, fun i row hrow => ?_⟩
    rw [hw.get i (List.getElem?_eq_some_iff.1 hrow).1, hrow]
    rfl

/-- An expression that has a type can be evaluated where its columns can be read. -/
theorem evalColumns_of_reads {e : Expr} {ty : LogicalType} (hty : exprType e schema = .ok ty)
    (h : ReadsAll e schema rows) : ∃ v, evalColumns e schema rows = .ok v ∧ v.logicalType = ty := by
  obtain ⟨columns, hd⟩ := decodeColumns_of_reads (Filter.referenced e)
    (List.replicate schema.length ⟨.bool, []⟩)
    fun j hj => h j (Filter.mem_referenced.1 hj)
  obtain ⟨-, ⟨e', hr, ht⟩ | ⟨v, hr, ht, hv⟩⟩ := evalExpr_decoded hd
  · rw [hty] at ht
    cases ht
  · rw [hty] at ht
    cases ht
    refine ⟨v, ?_, rfl⟩
    simp only [evalColumns, hd, hr, bind, Except.bind, Except.mapError]

/-! ### Filters and computed columns -/

/-- **A filter keeps each row by its own cells.** -/
theorem rowsPassingFilter_eq {predicate : Expr} (hty : exprType predicate schema = .ok .bool)
    (h : ReadsAll predicate schema rows) :
    rowsPassingFilter predicate schema rows =
      .ok (rows.filter fun row => truth (evalRow predicate (values schema row)) = some true) := by
  rw [rowsPassingFilter]
  by_cases hnil : rows = []
  · rw [if_pos hnil, hnil]
    rfl
  · obtain ⟨⟨ty, mask⟩, hv, hvty⟩ := evalColumns_of_reads hty h
    cases hvty
    obtain ⟨-, -, hlen, hget⟩ := evalColumns_ok hv
    have hlen : mask.length = rows.length := hlen
    have hmask : mask = rows.map fun row => truth (evalRow predicate (values schema row)) := by
      refine List.ext_getElem (by simp [hlen]) fun i hi hi' => ?_
      have hi' : i < rows.length := hlen ▸ hi
      have hcell := hget i rows[i] (List.getElem?_eq_getElem hi')
      rw [List.getElem_map, ← hcell, Vector.get, List.getElem?_eq_getElem hi]
      cases mask[i] <;> rfl
    rw [if_neg hnil]
    simp only [hv, predicateMask, bind, Except.bind]
    rw [hmask, List.zip_map_right, List.filterMap_map]
    have hzip : ∀ l : List Cells, (l.zip l).filterMap
        ((fun e : Cells × Option Bool => if e.2 = some true then some e.1 else none) ∘
          Prod.map id fun row => truth (evalRow predicate (values schema row))) =
        l.filter fun row => truth (evalRow predicate (values schema row)) = some true := by
      intro l
      induction l with
      | nil => rfl
      | cons row l ih =>
        rw [List.zip_cons_cons, List.filterMap_cons, ih, List.filter_cons]
        by_cases hrow : truth (evalRow predicate (values schema row)) = some true <;> simp [hrow]
    rw [hzip]

/-- A filter that succeeds keeps the rows for which the predicate is true. -/
theorem rowsPassingFilter_ok {predicate : Expr} (hty : exprType predicate schema = .ok .bool)
    {kept : List Cells} (h : rowsPassingFilter predicate schema rows = .ok kept) :
    kept = rows.filter fun row => truth (evalRow predicate (values schema row)) = some true := by
  by_cases hnil : rows = []
  · rw [rowsPassingFilter, if_pos hnil] at h
    cases h
    rw [hnil]
    rfl
  · rw [rowsPassingFilter, if_neg hnil] at h
    obtain ⟨v, hv, -⟩ := exists_of_bind_ok h
    have heq := rowsPassingFilter_eq hty (evalColumns_ok hv).1
    rw [rowsPassingFilter, if_neg hnil, h] at heq
    exact Except.ok.inj heq

/-- The cells of a computed column are those of the rows, and stay the same over a part of them. -/
theorem evalProjectionScalar_ok {scalar : Expr} {cells : List (Option Bytes)}
    (h : evalProjectionScalar scalar schema rows = .ok cells) {rows' : List Cells}
    (hsub : ∀ row ∈ rows', row ∈ rows) :
    evalProjectionScalar scalar schema rows' =
      .ok (rows'.map fun row => (evalRow scalar (values schema row)).map ScalarValue.encode) := by
  rw [evalProjectionScalar]
  by_cases hnil' : rows' = []
  · rw [if_pos hnil', hnil']
    rfl
  · have hnil : rows ≠ [] := by
      rintro rfl
      exact hnil' (List.eq_nil_iff_forall_not_mem.2 fun row hrow => by cases hsub row hrow)
    rw [evalProjectionScalar, if_neg hnil] at h
    obtain ⟨v, hv, -⟩ := exists_of_bind_ok h
    obtain ⟨hreads, hty, -, -⟩ := evalColumns_ok hv
    obtain ⟨v', hv', -⟩ := evalColumns_of_reads hty (hreads.mono hsub)
    obtain ⟨-, -, -, hget⟩ := evalColumns_ok hv'
    rw [if_neg hnil']
    simp only [hv', bind, Except.bind]
    refine congrArg Except.ok (List.ext_getElem (by simp) fun i hi hi' => ?_)
    have hi' : i < rows'.length := by simpa using hi'
    rw [List.getElem_map, List.getElem_map, List.getElem_range,
      hget i rows'[i] (List.getElem?_eq_getElem hi')]

end RowFilter

end SteleDb
