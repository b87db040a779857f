import SteleDb.Exec.RowFilter
import SteleDb.Lib.TreeFold

/-!
# Correlated subqueries

A correlated subquery in a `WHERE` relates a column of the inner query to a column of the outer row.
`filterPerRow` runs the inner query once for each outer row, with the row's value in place of the
reference, folds what it returns into a predicate and evaluates that on the row.

`meaning` is the truth value that SQL gives the subquery over the rows of the inner table; it is
`UNKNOWN` (`none`) where `NULL` has a part in it.  `filterPerRow_ok` says that the rows kept are
those for which it is true, `filterPerRow_of_readable` that they are kept if every cell that has a
part can be read.

An inner query that is not a plain scan is what its runs return.  A row of a table is modelled by
its own columns, without the provenance columns; scalar subqueries in a select list and the access
paths of a scan are left out, so that a filtered scan is the scan and the filter behind it.
-/

namespace SteleDb

open RowFilter

namespace Subquery

/-! ### Data -/

/-- Why a filter fails. -/
inductive EngineError where
  /-- A scan or an expression in it. -/
  | scan (e : ScanError)
  /-- A scalar subquery has more than one row. -/
  | scalarSubqueryCardinality
  deriving DecidableEq, Repr

/-- The predicate that a subquery stands in. -/
inductive SubqueryKind where
  /-- `column op (SELECT …)`, or the operands the other way round. -/
  | scalar (column : ℕ) (op : CmpOp) (subqueryLeft : Bool)
  /-- `column [NOT] IN (SELECT …)`. -/
  | inSet (column : ℕ) (negated : Bool)
  /-- `[NOT] EXISTS (SELECT …)`. -/
  | existence (negated : Bool)
  deriving DecidableEq, Repr

/-- The comparison that relates the inner query to the outer row. -/
structure Correlation where
  /-- The column of the outer row. -/
  outerColumn : ℕ
  /-- The column of the inner table. -/
  innerColumn : ℕ
  /-- The comparison, the inner column on the left. -/
  op : CmpOp
  deriving DecidableEq, Repr

/-- A column of a select list. -/
inductive ProjectionItem where
  /-- A column of the table. -/
  | column (source : ℕ)
  /-- An expression over them, with its type. -/
  | computed (scalar : Expr) (ty : LogicalType)
  deriving Repr

/-- A select list. -/
inductive Projection where
  /-- `*`. -/
  | all
  /-- Columns one by one. -/
  | items (items : List ProjectionItem)
  deriving Repr

/-- What a query returns: the types of its columns and its rows. -/
structure SelectResult where
  /-- The types. -/
  columns : List LogicalType
  /-- The rows. -/
  rows : List Cells
  deriving DecidableEq, Repr

/-- A plain scan of one table, without a filter of its own. -/
structure PlainScan where
  /-- The types of the table's columns. -/
  schema : List LogicalType
  /-- The rows at the snapshot of the statement, with the writes of the transaction. -/
  rows : Except EngineError (List Cells)
  /-- The select list. -/
  projection : Projection

/-- The inner query, its comparison with the outer row lifted off. -/
inductive BoundSelect where
  /-- A plain scan. -/
  | plain (scan : PlainScan)
  /-- Any other query, by what it returns under a filter. -/
  | other (run : Option Expr → Except EngineError SelectResult)

/-- A correlated subquery in a `WHERE`. -/
structure BoundSubqueryFilter where
  /-- The predicate. -/
  kind : SubqueryKind
  /-- The inner query. -/
  subquery : BoundSelect
  /-- How it is correlated. -/
  correlation : Correlation

/-! ### Scans -/

/-- Filter rows. -/
def filterRows (plan : FilterPlan Expr) (schema : List LogicalType) (rows : List Cells) :
    Except EngineError (List Cells) :=
  plan.filterRows (fun e rows => (rowsPassingFilter e schema rows).mapError .scan) rows

namespace ProjectionItem

/-- The type of a column of a select list. -/
def type (schema : List LogicalType) : ProjectionItem → LogicalType
  | column source => schema.getD source .bool
  | computed _ ty => ty

/-- The cells of a column of a select list. -/
def cells (schema : List LogicalType) (rows : List Cells) :
    ProjectionItem → Except EngineError (List (Option Bytes))
  | column source => .ok (rows.map (cell source))
  | computed scalar _ => (evalProjectionScalar scalar schema rows).mapError .scan

/-- The cell of one row. -/
def cellOf (schema : List LogicalType) (row : Cells) : ProjectionItem → Option Bytes
  | column source => cell source row
  | computed scalar _ => (evalRow scalar (values schema row)).map ScalarValue.encode

end ProjectionItem

/-- The columns of a select list. -/
def Projection.toItems (schema : List LogicalType) : Projection → List ProjectionItem
  | .all => (List.range schema.length).map .column
  | .items columns => columns

namespace PlainScan

/-- The columns that the scan returns. -/
def outputItems (q : PlainScan) : List ProjectionItem := q.projection.toItems q.schema

/-- Project rows, column by column. -/
def project (q : PlainScan) (rows : List Cells) : Except EngineError (List Cells) := do
  let columns ← q.outputItems.mapM (ProjectionItem.cells q.schema rows)
  .ok ((List.range rows.length).map fun r => columns.map fun cells => cells[r]?.join)

/-- Run the scan under a filter. -/
def run (q : PlainScan) (filter : Option Expr) : Except EngineError SelectResult := do
  let rows ← q.rows
  let kept ← filterRows (filter.elim .keepAll .predicate) q.schema rows
  let out ← q.project kept
  .ok ⟨q.outputItems.map (ProjectionItem.type q.schema), out⟩

end PlainScan

/-- Run the inner query under a filter. -/
def BoundSelect.runSelect : BoundSelect → Option Expr → Except EngineError SelectResult
  | plain scan, filter => scan.run filter
  | other run, filter => run filter

/-! ### One run for each row -/

/-- The filter of the inner query for one outer row. -/
def correlatedInner (correlation : Correlation) (value : ScalarValue) : Expr :=
  .compare correlation.op (.column correlation.innerColumn) (.literal value)

/-- Whether a row is kept if the inner query has no rows. -/
def emptyInnerKeeps : SubqueryKind → Bool
  | .existence negated | .inSet _ negated => negated
  | .scalar .. => false

/-- The values of the first column of a result. -/
def subqueryColumnValues (result : SelectResult) : Except EngineError (List (Option ScalarValue)) :=
  do
  let vector ← (keyVector result.rows 0 (result.columns.headD .bool)).mapError .scan
  .ok ((List.range result.rows.length).map vector.get)

/-- Combine terms in a balanced tree, unless there are none. -/
def balancedLogic (op : LogicOp) (terms : List Expr) : Option Expr :=
  TreeFold.treeFold (.logic op) terms

/-- The comparison with a scalar subquery. -/
def scalarSubqueryPlan (result : SelectResult) (column : ℕ) (op : CmpOp) (subqueryLeft : Bool) :
    Except EngineError (FilterPlan Expr) := do
  match ← subqueryColumnValues result with
  | [] | [none] => .ok .empty
  | [some value] =>
    .ok (.predicate (if subqueryLeft then .compare op (.literal value) (.column column)
      else .compare op (.column column) (.literal value)))
  | _ => .error .scalarSubqueryCardinality

/-- The membership in the first column of a result. -/
def inSubqueryPlan (result : SelectResult) (column : ℕ) (negated : Bool) :
    Except EngineError (FilterPlan Expr) := do
  let values ← subqueryColumnValues result
  if negated then
    if values.any Option.isNone then .ok .empty
    else
      let terms := (values.filterMap id).map fun v => Expr.compare .ne (.column column) (.literal v)
      .ok ((balancedLogic .and terms).elim .keepAll .predicate)
  else
    let terms := (values.filterMap id).map fun v => Expr.compare .eq (.column column) (.literal v)
    .ok ((balancedLogic .or terms).elim .empty .predicate)

/-- The predicate that a result makes of a subquery. -/
def foldSubquery (kind : SubqueryKind) (result : SelectResult) :
    Except EngineError (FilterPlan Expr) :=
  match kind with
  | .scalar column op subqueryLeft => scalarSubqueryPlan result column op subqueryLeft
  | .inSet column negated => inSubqueryPlan result column negated
  | .existence negated => .ok (if (result.rows ≠ []) ^^ negated then .keepAll else .empty)

namespace BoundSubqueryFilter

/-- Whether an outer row is kept, by a run of the inner query with its value. -/
def rowMatches (sub : BoundSubqueryFilter) (addressable : List LogicalType) (row : Cells) :
    Option ScalarValue → Except EngineError Bool
  | none => .ok (emptyInnerKeeps sub.kind)
  | some value => do
    let result ← sub.subquery.runSelect (some (correlatedInner sub.correlation value))
    let plan ← foldSubquery sub.kind result
    let kept ← filterRows plan addressable [row]
    .ok (kept ≠ [])

/-- The rows that match, one after another. -/
def keepMatching (matched : Cells → Option ScalarValue → Except EngineError Bool) :
    List (Cells × Option ScalarValue) → Except EngineError (List Cells)
  | [] => .ok []
  | (row, value) :: rest => do
    let keep ← matched row value
    let kept ← keepMatching matched rest
    .ok (if keep then row :: kept else kept)

/-- Filter rows by a run of the inner query for each. -/
def filterPerRow (sub : BoundSubqueryFilter) (schema addressable : List LogicalType)
    (rows : List Cells) : Except EngineError (List Cells) := do
  let outer := sub.correlation.outerColumn
  let vector ← (keyVector rows outer (schema.getD outer .bool)).mapError .scan
  keepMatching (sub.rowMatches addressable) (rows.zip ((List.range rows.length).map vector.get))

end BoundSubqueryFilter

/-! ### What the predicate means -/

/-- The cells of a row that a scan returns. -/
def PlainScan.projectRow (q : PlainScan) (row : Cells) : Cells :=
  q.outputItems.map (ProjectionItem.cellOf q.schema row)

/-- The column of the outer row that a subquery is compared with. -/
def SubqueryKind.column : SubqueryKind → Option ℕ
  | .scalar column _ _ | .inSet column _ => some column
  | .existence _ => none

/-- Two values are equal, which is `UNKNOWN` if one of them is `NULL`. -/
def eq3 (x y : Option ScalarValue) : Option Bool := do
  let a ← x
  let b ← y
  some (a = b)

/-- A value is among some others. -/
def in3 (x : Option ScalarValue) (members : List (Option ScalarValue)) : Option Bool :=
  members.foldr (fun m t => or3 (eq3 x m) t) (some false)

/-- The rows of the inner table that the correlation relates to a value. -/
def group (c : Correlation) (ty : LogicalType) (inner : List Cells) (key : Option ScalarValue) :
    List Cells :=
  inner.filter fun r =>
    truth (strict (ScalarValue.compare c.op) (value ty c.innerColumn r) key) = some true

namespace BoundSubqueryFilter

variable (sub : BoundSubqueryFilter)

/-- The type of the correlation key. -/
def keyTy (schema : List LogicalType) : LogicalType := schema.getD sub.correlation.outerColumn .bool

/-- The key of an outer row. -/
def outerKey (schema : List LogicalType) (row : Cells) : Option ScalarValue :=
  value (sub.keyTy schema) sub.correlation.outerColumn row

/-- The type of the column that a subquery is compared with. -/
def memberTy (schema : List LogicalType) : LogicalType :=
  schema.getD (sub.kind.column.getD 0) .bool

/-- The value in that column of an outer row. -/
def tested (schema : List LogicalType) (row : Cells) : Option ScalarValue :=
  value (sub.memberTy schema) (sub.kind.column.getD 0) row

/-- The first column of the inner rows related to an outer row. -/
def members (q : PlainScan) (schema : List LogicalType) (inner : List Cells) (row : Cells) :
    List (Option ScalarValue) :=
  (group sub.correlation (sub.keyTy schema) inner (sub.outerKey schema row)).map fun r =>
    value (sub.memberTy schema) 0 (q.projectRow r)

/-- **The truth value of a subquery** for an outer row, over the rows of the inner table. -/
def meaning (q : PlainScan) (schema : List LogicalType) (inner : List Cells) (row : Cells) :
    Option Bool :=
  let x := sub.tested schema row
  match sub.kind, sub.members q schema inner row with
  | .existence negated, members => some ((members ≠ []) ^^ negated)
  | .inSet _ negated, members => (in3 x members).map (· ^^ negated)
  | .scalar _ op true, [m] => truth (strict (ScalarValue.compare op) m x)
  | .scalar _ op false, [m] => truth (strict (ScalarValue.compare op) x m)
  -- no row is as one `NULL`, and more than one are an error
  | .scalar .., _ => none

/-- What the binder promises of a subquery over a plain scan. -/
structure Typed (q : PlainScan) (schema addressable : List LogicalType) : Prop where
  /-- The inner query. -/
  plain : sub.subquery = .plain q
  /-- The columns that predicates address begin with those of the table. -/
  addressable : schema <+: addressable
  /-- The correlated column of the outer rows. -/
  outer_key : schema[sub.correlation.outerColumn]? = some (sub.keyTy schema)
  /-- That of the inner ones has the same type. -/
  inner_key : q.schema[sub.correlation.innerColumn]? = some (sub.keyTy schema)
  /-- The compared columns have one type. -/
  member : ∀ column ∈ sub.kind.column, schema[column]? = some (sub.memberTy schema) ∧
    ∃ item ∈ q.outputItems.head?, item.type q.schema = sub.memberTy schema

/-- Each cell that has a part in the filter can be read. -/
structure Readable (q : PlainScan) (schema : List LogicalType) (rows inner : List Cells) : Prop
    where
  /-- The inner rows can be projected. -/
  project : ∃ out, q.project inner = .ok out
  /-- The keys of the outer rows. -/
  outer_key : ReadsColumn (sub.keyTy schema) sub.correlation.outerColumn rows
  /-- The keys of the inner rows. -/
  inner_key : ReadsColumn (sub.keyTy schema) sub.correlation.innerColumn inner
  /-- What is compared, if something is. -/
  member : ∀ column ∈ sub.kind.column, ReadsColumn (sub.memberTy schema) column rows ∧
    ReadsColumn (sub.memberTy schema) 0 (inner.map q.projectRow)

end BoundSubqueryFilter

/-! ### Three-valued logic -/

theorem or3_eq_true {x y : Option Bool} : or3 x y = some true ↔ x = some true ∨ y = some true := by
  rcases x with _ | _ | _ <;> rcases y with _ | _ | _ <;> simp [or3]

theorem or3_eq_false {x y : Option Bool} :
    or3 x y = some false ↔ x = some false ∧ y = some false := by
  rcases x with _ | _ | _ <;> rcases y with _ | _ | _ <;> simp [or3]

theorem and3_eq_true {x y : Option Bool} :
    and3 x y = some true ↔ x = some true ∧ y = some true := by
  rcases x with _ | _ | _ <;> rcases y with _ | _ | _ <;> simp [and3]

theorem in3_cons (x m : Option ScalarValue) (members : List (Option ScalarValue)) :
    in3 x (m :: members) = or3 (eq3 x m) (in3 x members) := rfl

theorem in3_eq_true {x : Option ScalarValue} {members : List (Option ScalarValue)} :
    in3 x members = some true ↔ ∃ a, x = some a ∧ some a ∈ members := by
  have heq : ∀ m, eq3 x m = some true ↔ ∃ a, x = some a ∧ m = some a := by
    intro m
    cases x <;> cases m <;> simp [eq3, eq_comm]
  induction members with
  | nil => simp [in3]
  | cons m members ih =>
    rw [in3_cons, or3_eq_true, heq]
    refine (or_congr_right ih).trans ?_
    constructor
    · rintro (⟨a, hx, hm⟩ | ⟨a, hx, ha⟩)
      · exact ⟨a, hx, by simp [hm]⟩
      · exact ⟨a, hx, List.mem_cons_of_mem _ ha⟩
    · rintro ⟨a, hx, ha⟩
      rcases List.mem_cons.1 ha with ha | ha
      · exact .inl ⟨a, hx, ha.symm⟩
      · exact .inr ⟨a, hx, ha⟩

theorem in3_eq_false {x : Option ScalarValue} {members : List (Option ScalarValue)} :
    in3 x members = some false ↔ ∀ m ∈ members, ∃ a b, x = some a ∧ m = some b ∧ a ≠ b := by
  have heq : ∀ m, eq3 x m = some false ↔ ∃ a b, x = some a ∧ m = some b ∧ a ≠ b := by
    intro m
    cases x <;> cases m <;> simp [eq3]
  induction members with
  | nil => simp [in3]
  | cons m members ih =>
    rw [in3_cons, or3_eq_false, heq, List.forall_mem_cons]
    exact and_congr_right fun _ => ih

/-! ### Comparisons with a value -/

section Comparisons

variable {schema : List LogicalType} {i : ℕ} {ty : LogicalType} {v : ScalarValue}

theorem exprType_compare (hi : schema[i]? = some ty) (hv : v.logicalType = ty) (op : CmpOp) :
    exprType (.compare op (.column i) (.literal v)) schema = .ok .bool := by
  simp [exprType, hi, hv, compareType, comparable, bind, Except.bind]

theorem exprType_compare_left (hi : schema[i]? = some ty) (hv : v.logicalType = ty) (op : CmpOp) :
    exprType (.compare op (.literal v) (.column i)) schema = .ok .bool := by
  simp [exprType, hi, hv, compareType, comparable, bind, Except.bind]

theorem readsAll_compare {rows : List Cells} (hi : schema[i]? = some ty) (h : ReadsColumn ty i rows)
    (op : CmpOp) : ReadsAll (.compare op (.column i) (.literal v)) schema rows := by
  intro j hj ty' hty'
  have hj : j = i := by simpa [Expr.collectColumns] using hj
  rw [hj, hi] at hty'
  cases hty'
  exact hj ▸ h

/-- The value of a column in a comparison. -/
theorem evalRow_compare (hi : schema[i]? = some ty) (op : CmpOp) (row : Cells) :
    evalRow (.compare op (.column i) (.literal v)) (values schema row) =
      strict (ScalarValue.compare op) (value ty i row) (some v) := by
  rw [evalRow, evalRow_column hi]
  rfl

theorem truth_compare_eq {row : Cells} (hv : v.logicalType = ty) :
    truth (strict (ScalarValue.compare .eq) (value ty i row) (some v)) = some true ↔
      value ty i row = some v := by
  cases hx : value ty i row with
  | none => simp [strict, truth]
  | some a =>
    have htype := (logicalType_value hx).trans hv.symm
    have hcmp := ScalarValue.compare_eq_true htype
    rw [Option.some.injEq, ← hcmp]
    simp only [strict, Option.bind_some, truth]
    cases a.compare .eq v with
    | none => simp
    | some b => cases b <;> simp [ScalarValue.asBool]

theorem truth_compare_ne {row : Cells} (hv : v.logicalType = ty) :
    truth (strict (ScalarValue.compare .ne) (value ty i row) (some v)) = some true ↔
      ∃ a, value ty i row = some a ∧ a ≠ v := by
  cases hx : value ty i row with
  | none => simp [strict, truth]
  | some a =>
    have htype := (logicalType_value hx).trans hv.symm
    have horder := ScalarValue.order_eq_cmp htype
    have heq := ScalarValue.order_eq_eq htype
    rw [horder, Option.some.injEq] at heq
    simp only [strict, Option.bind_some, truth, ScalarValue.compare, horder, Option.map_some,
      ScalarValue.asBool, applyCmp, Option.some.injEq, decide_eq_true_eq, ne_eq, heq]
    constructor
    · exact fun h => ⟨a, rfl, h⟩
    · rintro ⟨b, rfl, h⟩
      exact h

end Comparisons

/-! ### Combined terms -/

section Balanced

variable {schema : List LogicalType} {terms : List Expr} {e : Expr} {op : LogicOp}

theorem exprType_logic (op : LogicOp) (l r : Expr) :
    exprType (.logic op l r) schema = .ok .bool ↔
      exprType l schema = .ok .bool ∧ exprType r schema = .ok .bool := by
  rw [exprType]
  cases exprType l schema with
  | error e => simp [bind, Except.bind]
  | ok tl =>
    cases exprType r schema with
    | error e => simp [bind, Except.bind]
    | ok tr =>
      simp only [bind, Except.bind, logicType]
      by_cases h : tl = .bool ∧ tr = .bool
      · simp [h.1, h.2]
      · rw [if_neg h]
        simpa using fun h₁ h₂ => h ⟨h₁, h₂⟩

theorem truth_map_bool (x : Option Bool) : truth (x.map ScalarValue.bool) = x := by
  cases x <;> rfl

theorem exprType_balanced (h : balancedLogic op terms = some e) :
    exprType e schema = .ok .bool ↔ ∀ t ∈ terms, exprType t schema = .ok .bool :=
  TreeFold.treeFold_forall (p := fun e => exprType e schema = .ok .bool) (exprType_logic op) h

theorem readsAll_balanced {rows : List Cells} (h : balancedLogic op terms = some e) :
    ReadsAll e schema rows ↔ ∀ t ∈ terms, ReadsAll t schema rows :=
  TreeFold.treeFold_forall (p := fun e => ReadsAll e schema rows)
    (fun l r => by simp [ReadsAll, Expr.collectColumns, or_imp, forall_and]) h

theorem truth_or (h : balancedLogic .or terms = some e) (row : List (Option ScalarValue)) :
    truth (evalRow e row) = some true ↔ ∃ t ∈ terms, truth (evalRow t row) = some true :=
  TreeFold.treeFold_exists (p := fun e => truth (evalRow e row) = some true)
    (fun l r => by rw [evalRow, truth_map_bool, LogicOp.table, or3_eq_true]) h

theorem truth_and (h : balancedLogic .and terms = some e) (row : List (Option ScalarValue)) :
    truth (evalRow e row) = some true ↔ ∀ t ∈ terms, truth (evalRow t row) = some true :=
  TreeFold.treeFold_forall (p := fun e => truth (evalRow e row) = some true)
    (fun l r => by rw [evalRow, truth_map_bool, LogicOp.table, and3_eq_true]) h

/-- The nesting of an expression, which is how deep its evaluation recurses. -/
def depth : Expr → ℕ
  | .column _ | .literal _ => 0
  | .not operand | .isNull operand => depth operand + 1
  | .compare _ left right | .logic _ left right | .arith _ left right | .period _ left right
  | .makePeriod left right => max (depth left) (depth right) + 1

theorem table_assoc (op : LogicOp) (x y z : Option Bool) :
    op.table (op.table x y) z = op.table x (op.table y z) := by
  revert x y z
  cases op <;> decide

/-- **A balanced tree of terms is the chain of them, and logarithmically deep**: it has the truth
value and the type of the chain on every row, and each time the number of terms doubles the
evaluation recurses once more, where the chain would recurse once for each term. -/
theorem balancedLogic_eq_chain (op : LogicOp) (t : Expr) (terms : List Expr) :
    ∃ e, balancedLogic op (t :: terms) = some e ∧
      (∀ row, truth (evalRow e row) = truth (evalRow (terms.foldl (.logic op) t) row)) ∧
      (∀ schema, exprType e schema = .ok .bool ↔
        exprType (terms.foldl (.logic op) t) schema = .ok .bool) ∧
      (∀ k, (∀ t' ∈ t :: terms, depth t' ≤ k) →
        depth e ≤ Nat.clog 2 (terms.length + 1) + k) ∧
      terms.length ≤ depth (terms.foldl (.logic op) t) := by
  cases he : balancedLogic op (t :: terms) with
  | none => cases TreeFold.treeFold_eq_none.1 he
  | some e =>
    have hvalue : ∀ (row : List (Option ScalarValue)) (terms : List Expr) (t : Expr),
        truth (evalRow (terms.foldl (.logic op) t) row) =
          (terms.map fun t => truth (evalRow t row)).foldl op.table (truth (evalRow t row)) := by
      intro row terms
      induction terms with
      | nil => exact fun t => rfl
      | cons t' terms ih =>
        intro t
        rw [List.foldl_cons, ih, List.map_cons, List.foldl_cons, evalRow, truth_map_bool]
    have htype : ∀ (schema : List LogicalType) (terms : List Expr) (t : Expr),
        exprType (terms.foldl (.logic op) t) schema = .ok .bool ↔
          ∀ t' ∈ t :: terms, exprType t' schema = .ok .bool := by
      intro schema terms
      induction terms with
      | nil => simp
      | cons t' terms ih =>
        intro t
        rw [List.foldl_cons, ih, List.forall_mem_cons, exprType_logic, List.forall_mem_cons,
          List.forall_mem_cons, and_assoc]
    have hdeep : ∀ (terms : List Expr) (t : Expr),
        depth t + terms.length ≤ depth (terms.foldl (.logic op) t) := by
      intro terms
      induction terms with
      | nil => exact fun t => le_refl _
      | cons t' terms ih =>
        intro t
        have hchain := ih (.logic op t t')
        have hmax := le_max_left (depth t) (depth t')
        rw [depth] at hchain
        rw [List.foldl_cons, List.length_cons]
        omega
    refine ⟨e, rfl, fun row => ?_, fun schema => ?_, fun k hk => ?_, ?_⟩
    · rw [hvalue]
      exact TreeFold.treeFold_foldl (fun e => truth (evalRow e row)) (table_assoc op)
        (fun l r => by rw [evalRow, truth_map_bool]) he
    · rw [exprType_balanced he, htype]
    · exact TreeFold.treeFold_depth (d := depth) (fun l r => le_refl _) hk he
    · exact (Nat.le_add_left ..).trans (hdeep terms t)

end Balanced

/-! ### Runs of the inner query -/

theorem mapError_eq_ok {ε ε' β : Type} {x : Except ε β} {f : ε → ε'} {v : β} :
    x.mapError f = .ok v ↔ x = .ok v := by
  cases x <;> simp [Except.mapError]

theorem ProjectionItem.cells_ok {item : ProjectionItem} {schema : List LogicalType}
    {rows : List Cells} {out : List (Option Bytes)} (h : item.cells schema rows = .ok out)
    {rows' : List Cells} (hsub : ∀ row ∈ rows', row ∈ rows) :
    item.cells schema rows' = .ok (rows'.map fun row => item.cellOf schema row) := by
  cases item with
  | column source => rfl
  | computed scalar ty => exact mapError_eq_ok.2 (evalProjectionScalar_ok (mapError_eq_ok.1 h) hsub)

namespace PlainScan

variable {q : PlainScan} {inner rows : List Cells}

/-- What can be projected can be projected in part, row by row. -/
theorem project_ok {out : List Cells} (h : q.project inner = .ok out)
    (hsub : ∀ row ∈ rows, row ∈ inner) : q.project rows = .ok (rows.map q.projectRow) := by
  obtain ⟨columns, hcols, -⟩ := exists_of_bind_ok h
  have hitems : ∀ item ∈ q.outputItems, item.cells q.schema rows =
      .ok (rows.map fun row => item.cellOf q.schema row) := by
    intro item hitem
    obtain ⟨j, hj, rfl⟩ := List.getElem_of_mem hitem
    have hall := mapM_eq_ok_iff_forall₂.1 hcols
    exact ProjectionItem.cells_ok (hall.get hj (hall.length_eq ▸ hj)) hsub
  rw [project, mapM_of_forall hitems]
  refine congrArg Except.ok (List.ext_getElem (by simp) fun r hr hr' => ?_)
  have hr' : r < rows.length := by simpa using hr'
  simp only [List.getElem_map, List.getElem_range, projectRow, List.map_map]
  refine List.map_congr_left fun item _ => ?_
  simp [hr']

variable {c : Correlation} {ty : LogicalType} {v : ScalarValue}

/-- A run with the value of an outer row returns the related rows. -/
theorem run_ok (hrows : q.rows = .ok inner) (hkey : q.schema[c.innerColumn]? = some ty)
    (hv : v.logicalType = ty) {result : SelectResult}
    (h : q.run (some (correlatedInner c v)) = .ok result) :
    result = ⟨q.outputItems.map (ProjectionItem.type q.schema),
      (group c ty inner (some v)).map q.projectRow⟩ := by
  obtain ⟨inner', hinner, h⟩ := exists_of_bind_ok h
  rw [hrows] at hinner
  cases hinner
  obtain ⟨kept, hkept, h⟩ := exists_of_bind_ok h
  obtain ⟨out, hout, h⟩ := exists_of_bind_ok h
  cases h
  have hkept := rowsPassingFilter_ok (exprType_compare hkey hv c.op) (mapError_eq_ok.1 hkept)
  simp only [evalRow_compare hkey] at hkept
  have hproject := project_ok hout fun row hrow => hrow
  rw [hout] at hproject
  rw [Except.ok.inj hproject, hkept]
  rfl

/-- The run succeeds if the inner rows can be read and projected. -/
theorem run_of_reads (hrows : q.rows = .ok inner) (hkey : q.schema[c.innerColumn]? = some ty)
    (hv : v.logicalType = ty) (hreads : ReadsColumn ty c.innerColumn inner) {out : List Cells}
    (hproject : q.project inner = .ok out) :
    ∃ result, q.run (some (correlatedInner c v)) = .ok result := by
  have hkept : filterRows (.predicate (correlatedInner c v)) q.schema inner = .ok _ :=
    mapError_eq_ok.2 (rowsPassingFilter_eq (exprType_compare hkey hv c.op)
      (readsAll_compare hkey hreads c.op))
  have hsub : ∀ p : Cells → Bool, q.project (inner.filter p) = .ok _ := fun p =>
    project_ok hproject fun row hrow => List.mem_of_mem_filter hrow
  simp only [run, hrows, bind, Except.bind, Option.elim_some, hkept, hsub]
  exact ⟨_, rfl⟩

end PlainScan

/-! ### The predicate of one row -/

section OneRow

variable {addressable : List LogicalType} {row : Cells} {kept : List Cells} {ty : LogicalType}
  {column : ℕ} {result : SelectResult} {plan : FilterPlan Expr}

theorem filterRows_singleton {e : Expr} (hty : exprType e addressable = .ok .bool)
    (h : filterRows (.predicate e) addressable [row] = .ok kept) :
    kept ≠ [] ↔ truth (evalRow e (values addressable row)) = some true := by
  rw [rowsPassingFilter_ok hty (mapError_eq_ok.1 h)]
  simp

theorem filterRows_singleton_of_reads {e : Expr} (hty : exprType e addressable = .ok .bool)
    (h : ReadsAll e addressable [row]) : ∃ kept, filterRows (.predicate e) addressable [row] =
      .ok kept :=
  ⟨_, mapError_eq_ok.2 (rowsPassingFilter_eq hty h)⟩

theorem subqueryColumnValues_ok {values : List (Option ScalarValue)}
    (h : subqueryColumnValues result = .ok values) (hty : result.columns.headD .bool = ty) :
    ReadsColumn ty 0 result.rows ∧ values = result.rows.map (value ty 0) := by
  obtain ⟨v, hv, h⟩ := exists_of_bind_ok h
  obtain ⟨hreads, rfl⟩ := keyVector_eq_ok.1 (mapError_eq_ok.1 hv)
  cases h
  rw [hty] at hreads ⊢
  refine ⟨hreads, List.ext_getElem (by simp) fun i hi hi' => ?_⟩
  have hi' : i < result.rows.length := by simpa using hi'
  rw [List.getElem_map, List.getElem_map, List.getElem_range,
    get_columnVector (List.getElem?_eq_getElem hi')]

theorem subqueryColumnValues_of_reads (hty : result.columns.headD .bool = ty)
    (h : ReadsColumn ty 0 result.rows) : ∃ values, subqueryColumnValues result = .ok values := by
  rw [subqueryColumnValues, hty, keyVector_eq_ok.2 ⟨h, rfl⟩]
  exact ⟨_, rfl⟩

theorem logicalType_of_mem_map_value {rows : List Cells} {v : ScalarValue}
    (h : v ∈ (rows.map (value ty 0)).filterMap id) : v.logicalType = ty := by
  obtain ⟨x, hx, hv⟩ := List.mem_filterMap.1 h
  obtain ⟨r, -, rfl⟩ := List.mem_map.1 hx
  exact logicalType_value hv

variable (row) in
/-- The comparisons of a column with values of its type can be made where it can be read. -/
theorem typed_terms (hcol : addressable[column]? = some ty) {op : CmpOp} {vs : List ScalarValue}
    (hvs : ∀ v ∈ vs, v.logicalType = ty) :
    ∀ t ∈ vs.map fun v => Expr.compare op (.column column) (.literal v),
      exprType t addressable = .ok .bool ∧
        (ReadsColumn ty column [row] → ReadsAll t addressable [row]) := by
  intro t ht
  obtain ⟨v, hv, rfl⟩ := List.mem_map.1 ht
  exact ⟨exprType_compare hcol (hvs v hv) op, fun h => readsAll_compare hcol h op⟩

/-- **`IN` and `NOT IN` as predicates.** -/
theorem inSubqueryPlan_ok (hcol : addressable[column]? = some ty)
    (hty : result.columns.headD .bool = ty) {negated : Bool}
    (hplan : inSubqueryPlan result column negated = .ok plan)
    (hkept : filterRows plan addressable [row] = .ok kept) :
    kept ≠ [] ↔ (in3 (value ty column row) (result.rows.map (value ty 0))).map (· ^^ negated) =
      some true := by
  obtain ⟨values', hvalues, hplan⟩ := exists_of_bind_ok hplan
  obtain ⟨-, rfl⟩ := subqueryColumnValues_ok hvalues hty
  have hvs : ∀ v ∈ (result.rows.map (value ty 0)).filterMap id, v.logicalType = ty :=
    fun v => logicalType_of_mem_map_value
  have hmem : ∀ v : ScalarValue, v ∈ (result.rows.map (value ty 0)).filterMap id ↔
      some v ∈ result.rows.map (value ty 0) := by
    intro v
    rw [List.mem_filterMap]
    exact ⟨fun ⟨x, hx, hv⟩ => hv ▸ hx, fun h => ⟨some v, h, rfl⟩⟩
  cases negated with
  | false =>
    have hmap : ∀ x : Option Bool, x.map (· ^^ false) = x := by
      intro x
      cases x <;> simp
    rw [hmap, in3_eq_true]
    simp only [Bool.false_eq_true, if_false] at hplan
    cases hb : balancedLogic .or (((result.rows.map (value ty 0)).filterMap id).map fun v =>
      Expr.compare .eq (.column column) (.literal v)) with
    | none =>
      rw [hb] at hplan
      cases hplan
      cases hkept
      have hnil := List.map_eq_nil_iff.1 (TreeFold.treeFold_eq_none.1 hb)
      refine iff_of_false (by simp) ?_
      rintro ⟨a, -, ha⟩
      rw [← hmem, hnil] at ha
      cases ha
    | some e =>
      rw [hb] at hplan
      cases hplan
      rw [filterRows_singleton ((exprType_balanced hb).2 fun t ht =>
        (typed_terms row hcol hvs t ht).1) hkept, truth_or hb]
      constructor
      · rintro ⟨t, ht, h⟩
        obtain ⟨v, hv, rfl⟩ := List.mem_map.1 ht
        rw [evalRow_compare hcol, truth_compare_eq (hvs v hv)] at h
        exact ⟨v, h, (hmem v).1 hv⟩
      · rintro ⟨v, h, hv⟩
        refine ⟨_, List.mem_map_of_mem ((hmem v).2 hv), ?_⟩
        rw [evalRow_compare hcol, truth_compare_eq (hvs v ((hmem v).2 hv))]
        exact h
  | true =>
    have hmap : ∀ x : Option Bool, x.map (· ^^ true) = some true ↔ x = some false := by
      intro x
      rcases x with _ | _ | _ <;> simp
    rw [hmap, in3_eq_false]
    simp only [if_true] at hplan
    by_cases hnull : (result.rows.map (value ty 0)).any Option.isNone
    · -- a `NULL` member makes it `UNKNOWN`
      rw [if_pos hnull] at hplan
      cases hplan
      cases hkept
      obtain ⟨m, hm, hnone⟩ := List.any_eq_true.1 hnull
      refine iff_of_false (by simp) fun hall => ?_
      obtain ⟨-, b, -, rfl, -⟩ := hall m hm
      cases hnone
    · rw [if_neg hnull] at hplan
      have hsome : ∀ m ∈ result.rows.map (value ty 0), ∃ v, m = some v := by
        intro m hm
        cases m with
        | none => exact absurd (List.any_eq_true.2 ⟨none, hm, rfl⟩) hnull
        | some v => exact ⟨v, rfl⟩
      cases hb : balancedLogic .and (((result.rows.map (value ty 0)).filterMap id).map fun v =>
        Expr.compare .ne (.column column) (.literal v)) with
      | none =>
        rw [hb] at hplan
        cases hplan
        cases hkept
        have hnil := List.map_eq_nil_iff.1 (TreeFold.treeFold_eq_none.1 hb)
        refine iff_of_true (by simp) fun m hm => ?_
        obtain ⟨v, rfl⟩ := hsome m hm
        rw [← hmem, hnil] at hm
        cases hm
      | some e =>
        rw [hb] at hplan
        cases hplan
        rw [filterRows_singleton ((exprType_balanced hb).2 fun t ht =>
          (typed_terms row hcol hvs t ht).1) hkept, truth_and hb, List.forall_mem_map]
        constructor
        · intro h m hm
          obtain ⟨v, rfl⟩ := hsome m hm
          have hv := h v ((hmem v).2 hm)
          rw [evalRow_compare hcol, truth_compare_ne (hvs v ((hmem v).2 hm))] at hv
          obtain ⟨a, ha, hne⟩ := hv
          exact ⟨a, v, ha, rfl, hne⟩
        · intro h v hv
          rw [evalRow_compare hcol, truth_compare_ne (hvs v hv)]
          obtain ⟨a, b, ha, hb, hne⟩ := h _ ((hmem v).1 hv)
          cases hb
          exact ⟨a, ha, hne⟩

theorem inSubqueryPlan_of_reads (hcol : addressable[column]? = some ty)
    (hty : result.columns.headD .bool = ty) (negated : Bool) (hreads : ReadsColumn ty 0 result.rows)
    (hrow : ReadsColumn ty column [row]) : ∃ plan kept,
      inSubqueryPlan result column negated = .ok plan ∧
        filterRows plan addressable [row] = .ok kept := by
  obtain ⟨values', hvalues⟩ := subqueryColumnValues_of_reads hty hreads
  obtain ⟨-, rfl⟩ := subqueryColumnValues_ok hvalues hty
  have hvs : ∀ v ∈ (result.rows.map (value ty 0)).filterMap id, v.logicalType = ty :=
    fun v => logicalType_of_mem_map_value
  have hplan : ∀ (op : LogicOp) (cmp : CmpOp) {e : Expr},
      balancedLogic op (((result.rows.map (value ty 0)).filterMap id).map fun v =>
        Expr.compare cmp (.column column) (.literal v)) = some e →
      ∃ kept, filterRows (.predicate e) addressable [row] = .ok kept := fun op cmp e hb =>
    filterRows_singleton_of_reads
      ((exprType_balanced hb).2 fun t ht => (typed_terms row hcol hvs t ht).1)
      ((readsAll_balanced hb).2 fun t ht => (typed_terms row hcol hvs t ht).2 hrow)
  simp only [inSubqueryPlan, hvalues, bind, Except.bind]
  by_cases hneg : negated = true
  · by_cases hnull : (result.rows.map (value ty 0)).any Option.isNone = true
    · exact ⟨.empty, [], by rw [if_pos hneg, if_pos hnull], rfl⟩
    · rw [if_pos hneg, if_neg hnull]
      cases hb : balancedLogic .and (((result.rows.map (value ty 0)).filterMap id).map fun v =>
        Expr.compare .ne (.column column) (.literal v)) with
      | none => exact ⟨.keepAll, [row], rfl, rfl⟩
      | some e =>
        obtain ⟨kept, hkept⟩ := hplan _ _ hb
        exact ⟨_, kept, rfl, hkept⟩
  · rw [if_neg hneg]
    cases hb : balancedLogic .or (((result.rows.map (value ty 0)).filterMap id).map fun v =>
      Expr.compare .eq (.column column) (.literal v)) with
    | none => exact ⟨.empty, [], rfl, rfl⟩
    | some e =>
      obtain ⟨kept, hkept⟩ := hplan _ _ hb
      exact ⟨_, kept, rfl, hkept⟩

/-- A comparison with a scalar subquery as a predicate. -/
theorem scalarSubqueryPlan_ok (hcol : addressable[column]? = some ty)
    (hty : result.columns.headD .bool = ty) {op : CmpOp} {subqueryLeft : Bool}
    (hplan : scalarSubqueryPlan result column op subqueryLeft = .ok plan)
    (hkept : filterRows plan addressable [row] = .ok kept) :
    kept ≠ [] ↔ ∃ m, result.rows.map (value ty 0) = [m] ∧
      truth (if subqueryLeft then strict (ScalarValue.compare op) m (value ty column row)
        else strict (ScalarValue.compare op) (value ty column row) m) = some true := by
  obtain ⟨values', hvalues, hplan⟩ := exists_of_bind_ok hplan
  obtain ⟨-, hmap⟩ := subqueryColumnValues_ok hvalues hty
  rw [← hmap]
  match hm : values' with
  | [] =>
    cases hplan
    cases hkept
    simp
  | [none] =>
    cases hplan
    cases hkept
    cases subqueryLeft <;> cases value ty column row <;> simp [strict, truth]
  | [some v] =>
    cases hplan
    have hv : v.logicalType = ty := logicalType_of_mem_map_value (by rw [← hmap]; simp)
    cases subqueryLeft with
    | false =>
      rw [filterRows_singleton (exprType_compare hcol hv op) hkept, evalRow_compare hcol]
      simp
    | true =>
      rw [filterRows_singleton (exprType_compare_left hcol hv op) hkept, evalRow,
        evalRow_column hcol]
      simp [evalRow]
  | x :: _ :: _ => cases x <;> cases hplan

end OneRow

namespace BoundSubqueryFilter

variable {sub : BoundSubqueryFilter} {q : PlainScan} {schema addressable : List LogicalType}
  {rows inner : List Cells} {row : Cells} {v : ScalarValue}

theorem Typed.outputType (h : sub.Typed q schema addressable) {column : ℕ}
    (hc : sub.kind.column = some column) :
    addressable[column]? = some (sub.memberTy schema) ∧
      (q.outputItems.map (ProjectionItem.type q.schema)).headD .bool = sub.memberTy schema := by
  obtain ⟨hcol, item, hitem, hty⟩ := h.member column hc
  obtain ⟨rest, rfl⟩ := h.addressable
  refine ⟨(List.getElem?_append_left (List.getElem?_eq_some_iff.1 hcol).1).trans hcol, ?_⟩
  rw [List.headD_eq_head?_getD, List.head?_map, Option.mem_def.1 hitem]
  exact hty

/-- The rows related to no value. -/
theorem group_none (c : Correlation) (ty : LogicalType) (inner : List Cells) :
    group c ty inner none = [] := by
  refine List.filter_eq_nil_iff.2 fun r _ => ?_
  cases value ty c.innerColumn r <;> simp [strict, truth]

/-- **The decision on one row** is the truth value of the subquery. -/
theorem rowMatches_ok (h : sub.Typed q schema addressable) (hrows : q.rows = .ok inner)
    {keep : Bool} (hkeep : sub.rowMatches addressable row (sub.outerKey schema row) = .ok keep) :
    keep ↔ sub.meaning q schema inner row = some true := by
  cases hkey : sub.outerKey schema row with
  | none =>
    -- nothing is related to `NULL`
    have hnil : sub.members q schema inner row = [] := by rw [members, hkey, group_none]; rfl
    rw [hkey, rowMatches] at hkeep
    cases hkeep
    cases hk : sub.kind with
    | scalar column op left => cases left <;> simp [meaning, hk, hnil, emptyInnerKeeps]
    | inSet column negated => simp [meaning, hk, hnil, emptyInnerKeeps, in3]
    | existence negated => simp [meaning, hk, hnil, emptyInnerKeeps]
  | some v =>
    rw [hkey, rowMatches] at hkeep
    obtain ⟨result, hrun, hkeep⟩ := exists_of_bind_ok hkeep
    obtain ⟨plan, hplan, hkeep⟩ := exists_of_bind_ok hkeep
    obtain ⟨kept, hkept, hkeep⟩ := exists_of_bind_ok hkeep
    cases hkeep
    rw [h.plain] at hrun
    obtain rfl := PlainScan.run_ok hrows h.inner_key (logicalType_value hkey) hrun
    have hmembers : sub.members q schema inner row =
        (group sub.correlation (sub.keyTy schema) inner (some v)).map fun r =>
          value (sub.memberTy schema) 0 (q.projectRow r) := by rw [members, hkey]
    rw [decide_eq_true_iff]
    cases hk : sub.kind with
    | existence negated =>
      rw [hk] at hplan
      cases hplan
      have hne : (group sub.correlation (sub.keyTy schema) inner (some v)).map q.projectRow ≠ [] ↔
          sub.members q schema inner row ≠ [] := by
        rw [hmembers, ne_eq, List.map_eq_nil_iff, ne_eq, List.map_eq_nil_iff]
      simp only [meaning, hk, Option.some.injEq, ← decide_eq_decide.2 hne]
      cases hd : decide ((group sub.correlation (sub.keyTy schema) inner (some v)).map
        q.projectRow ≠ []) ^^ negated with
      | true =>
        rw [hd] at hkept
        cases hkept
        simp
      | false =>
        rw [hd] at hkept
        cases hkept
        simp
    | inSet column negated =>
      have hcol : sub.kind.column = some column := by rw [hk]; rfl
      obtain ⟨haddr, hty⟩ := h.outputType hcol
      rw [hk] at hplan
      rw [inSubqueryPlan_ok haddr hty hplan hkept]
      have htested : sub.tested schema row = value (sub.memberTy schema) column row := by
        rw [tested, hcol, Option.getD_some]
      simp only [meaning, hk, htested, hmembers, List.map_map]
      exact Iff.rfl
    | scalar column op left =>
      have hcol : sub.kind.column = some column := by rw [hk]; rfl
      obtain ⟨haddr, hty⟩ := h.outputType hcol
      rw [hk] at hplan
      rw [scalarSubqueryPlan_ok haddr hty hplan hkept]
      have hmap : ((group sub.correlation (sub.keyTy schema) inner (some v)).map
          q.projectRow).map (value (sub.memberTy schema) 0) = sub.members q schema inner row := by
        rw [hmembers, List.map_map]
        rfl
      have htested : sub.tested schema row = value (sub.memberTy schema) column row := by
        rw [tested, hcol, Option.getD_some]
      simp only [hmap, meaning, hk, htested]
      cases left <;> rcases sub.members q schema inner row with _ | ⟨m, _ | ⟨m', ms⟩⟩ <;> simp

/-- A row is decided on if its cells and those of the inner rows can be read. -/
theorem rowMatches_of_readable (h : sub.Typed q schema addressable) (hrows : q.rows = .ok inner)
    (hread : sub.Readable q schema rows inner) (hrow : row ∈ rows)
    (hkind : ∀ column op left, sub.kind ≠ .scalar column op left) :
    ∃ keep, sub.rowMatches addressable row (sub.outerKey schema row) = .ok keep := by
  cases hkey : sub.outerKey schema row with
  | none => exact ⟨_, rfl⟩
  | some v =>
    obtain ⟨out, hout⟩ := hread.project
    obtain ⟨result, hrun⟩ := PlainScan.run_of_reads hrows h.inner_key (logicalType_value hkey)
      hread.inner_key hout
    have hresult := PlainScan.run_ok hrows h.inner_key (logicalType_value hkey) hrun
    have hplan : ∃ plan kept, foldSubquery sub.kind result = .ok plan ∧
        filterRows plan addressable [row] = .ok kept := by
      cases hk : sub.kind with
      | existence negated =>
        refine ⟨_, if (result.rows ≠ []) ^^ negated then [row] else [], rfl, ?_⟩
        cases decide (result.rows ≠ []) ^^ negated <;> rfl
      | inSet column negated =>
        have hcol : sub.kind.column = some column := by rw [hk]; rfl
        obtain ⟨haddr, hty⟩ := h.outputType hcol
        obtain ⟨houter, hinner⟩ := hread.member column hcol
        refine inSubqueryPlan_of_reads haddr (by rw [hresult]; exact hty) negated
          (hinner.mono fun r hr => ?_) (houter.mono fun r hr => ?_)
        · rw [hresult] at hr
          obtain ⟨r', hr', rfl⟩ := List.mem_map.1 hr
          exact List.mem_map_of_mem (List.mem_of_mem_filter hr')
        · rwa [List.mem_singleton.1 hr]
      | scalar column op left => exact absurd hk (hkind column op left)
    obtain ⟨plan, kept, hfold, hkept⟩ := hplan
    refine ⟨decide (kept ≠ []), ?_⟩
    have hrun : sub.subquery.runSelect (some (correlatedInner sub.correlation v)) = .ok result := by
      rw [h.plain]
      exact hrun
    simp only [rowMatches, hrun, hfold, hkept, bind, Except.bind]

/-- The rows with their keys. -/
theorem zip_outerKeys (sub : BoundSubqueryFilter) (schema : List LogicalType) (rows : List Cells) :
    rows.zip ((List.range rows.length).map
      (columnVector (sub.keyTy schema) sub.correlation.outerColumn rows).get) =
      rows.map fun row => (row, sub.outerKey schema row) := by
  refine List.ext_getElem (by simp) fun i hi hi' => ?_
  have hi' : i < rows.length := by simpa using hi'
  rw [List.getElem_zip, List.getElem_map, List.getElem_map, List.getElem_range,
    get_columnVector (List.getElem?_eq_getElem hi')]
  rfl

theorem keepMatching_ok {matched : Cells → Option ScalarValue → Except EngineError Bool}
    {key : Cells → Option ScalarValue} {p : Cells → Bool} {kept : List Cells}
    (hp : ∀ row ∈ rows, ∀ keep, matched row (key row) = .ok keep → keep = p row)
    (h : keepMatching matched (rows.map fun row => (row, key row)) = .ok kept) :
    kept = rows.filter p := by
  induction rows generalizing kept with
  | nil =>
    cases h
    rfl
  | cons row rows ih =>
    rw [List.map_cons, keepMatching] at h
    obtain ⟨keep, hkeep, h⟩ := exists_of_bind_ok h
    obtain ⟨rest, hrest, h⟩ := exists_of_bind_ok h
    cases h
    rw [ih (fun r hr => hp r (List.mem_cons_of_mem _ hr)) hrest, List.filter_cons,
      hp row List.mem_cons_self keep hkeep]

theorem keepMatching_of_forall {matched : Cells → Option ScalarValue → Except EngineError Bool}
    {key : Cells → Option ScalarValue}
    (h : ∀ row ∈ rows, ∃ keep, matched row (key row) = .ok keep) :
    ∃ kept, keepMatching matched (rows.map fun row => (row, key row)) = .ok kept := by
  induction rows with
  | nil => exact ⟨[], rfl⟩
  | cons row rows ih =>
    obtain ⟨keep, hkeep⟩ := h row List.mem_cons_self
    obtain ⟨kept, hkept⟩ := ih fun r hr => h r (List.mem_cons_of_mem _ hr)
    simp only [List.map_cons, keepMatching, hkeep, hkept, bind, Except.bind]
    exact ⟨_, rfl⟩

/-- **What is kept by a run of the inner query for each row** are the rows for which the subquery is
true. -/
theorem filterPerRow_ok (h : sub.Typed q schema addressable) (hrows : q.rows = .ok inner)
    {kept : List Cells} (hok : sub.filterPerRow schema addressable rows = .ok kept) :
    kept = rows.filter fun row => sub.meaning q schema inner row = some true := by
  obtain ⟨v, hv, hok⟩ := exists_of_bind_ok hok
  obtain ⟨-, rfl⟩ := keyVector_eq_ok.1 (mapError_eq_ok.1 hv)
  rw [← keyTy, zip_outerKeys] at hok
  refine keepMatching_ok (fun row _ keep hkeep => ?_) hok
  rw [Bool.eq_iff_iff, rowMatches_ok h hrows hkeep, decide_eq_true_iff]

/-- It succeeds if each cell that has a part in it can be read. -/
theorem filterPerRow_of_readable (h : sub.Typed q schema addressable) (hrows : q.rows = .ok inner)
    (hread : sub.Readable q schema rows inner)
    (hkind : ∀ column op left, sub.kind ≠ .scalar column op left) :
    sub.filterPerRow schema addressable rows =
      .ok (rows.filter fun row => sub.meaning q schema inner row = some true) := by
  have hsome : ∃ kept, sub.filterPerRow schema addressable rows = .ok kept := by
    rw [filterPerRow, ← keyTy, keyVector_eq_ok.2 ⟨hread.outer_key, rfl⟩]
    simp only [Except.mapError, bind, Except.bind, zip_outerKeys]
    exact keepMatching_of_forall fun row hrow => rowMatches_of_readable h hrows hread hrow hkind
  obtain ⟨kept, hkept⟩ := hsome
  rw [hkept, filterPerRow_ok h hrows hkept]

end BoundSubqueryFilter

end Subquery

end SteleDb
