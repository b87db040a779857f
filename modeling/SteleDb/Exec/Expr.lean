import SteleDb.Exec.Scalar

/-!
# The vectorized evaluator

An expression is evaluated for a whole batch of rows at once: every node of the tree gives a typed
vector with one nullable cell for each row, and `NULL` is one of three truth values.

The same language read the plain way is `exprType`, the type of an expression over columns of given
types, and `evalRow`, its value for one row.  `evalExpr_yields` says that the vector of an
expression has that type and holds at each position that value, and that the evaluator refuses an
expression exactly when it has no type: no value in a column makes it fail.
-/

namespace SteleDb

/-! ### Expressions -/

/-- A comparison. -/
inductive CmpOp where
  | eq
  | ne
  | lt
  | le
  | gt
  | ge
  deriving DecidableEq, Repr

/-- A binary connective. -/
inductive LogicOp where
  | and
  | or
  deriving DecidableEq, Repr

/-- Integer arithmetic. -/
inductive ArithOp where
  | add
  | sub
  | mul
  /-- Truncating division. -/
  | div
  /-- The remainder, with the sign of the dividend. -/
  | mod
  deriving DecidableEq, Repr

/-- A predicate over two periods. -/
inductive PeriodPredicate where
  | contains
  | overlaps
  | equals
  | precedes
  | succeeds
  | immediatelyPrecedes
  | immediatelySucceeds
  deriving DecidableEq, Repr

/-- An expression over the columns of a batch. -/
inductive Expr where
  /-- The column at a position. -/
  | column (index : ℕ)
  /-- A constant. -/
  | literal (value : ScalarValue)
  /-- `NOT`. -/
  | not (operand : Expr)
  /-- `IS NULL`. -/
  | isNull (operand : Expr)
  /-- A comparison. -/
  | compare (op : CmpOp) (left right : Expr)
  /-- `AND` or `OR`. -/
  | logic (op : LogicOp) (left right : Expr)
  /-- Arithmetic. -/
  | arith (op : ArithOp) (left right : Expr)
  /-- A period predicate. -/
  | period (pred : PeriodPredicate) (left right : Expr)
  /-- `PERIOD(from, to)`. -/
  | makePeriod (start stop : Expr)
  deriving DecidableEq, Repr

/-- The positions that an expression reads. -/
def Expr.collectColumns : Expr → List ℕ
  | column index => [index]
  | literal _ => []
  | not operand | isNull operand => operand.collectColumns
  | compare _ left right | logic _ left right | arith _ left right | period _ left right =>
    left.collectColumns ++ right.collectColumns
  | makePeriod start stop => start.collectColumns ++ stop.collectColumns

/-! ### Doubles

A double is its bit pattern.  Only comparisons read it. -/

/-- The quotient, rounded to the nearest, ties to the even one. -/
def roundHalfEven (n d : ℕ) : ℕ :=
  if 2 * (n % d) < d ∨ (2 * (n % d) = d ∧ n / d % 2 = 0) then n / d else n / d + 1

/-- The bits of the double nearest to an integer. -/
def f64OfInt (x : ℤ) : ℕ :=
  let m := x.natAbs
  if m = 0 then 0
  else
    let e := m.log2
    let significand := if e ≤ 52 then m * 2 ^ (52 - e) else roundHalfEven m (2 ^ (e - 52))
    -- a significand rounded up to `2 ^ 53` carries into the exponent
    (if x < 0 then 2 ^ 63 else 0) + (e + 1023) * 2 ^ 52 + (significand - 2 ^ 52)

/-- The key that the total order of doubles sorts by. -/
def totalOrderKey (bits : ℕ) : ℤ := if bits < 2 ^ 63 then bits else 2 ^ 63 - 1 - bits

/-- `f64::total_cmp`. -/
def totalCmp (a b : ℕ) : Ordering := cmp (totalOrderKey a) (totalOrderKey b)

/-- Periods are compared by their start, then by their end. -/
def cmpPeriod (a b : ℤ × ℤ) : Ordering := (cmp a.1 b.1).then (cmp a.2 b.2)

/-! ### Vectors -/

/-- What a cell of the type holds. -/
@[reducible]
def LogicalType.Value : LogicalType → Type
  | .int4 | .int8 | .timestamp | .timestampTz | .date => ℤ
  | .text | .uuid | .bytea => Bytes
  | .bool => Bool
  | .period => ℤ × ℤ
  | .float8 => ℕ

/-- The content of a cell, as a value. -/
def LogicalType.scalar : (ty : LogicalType) → ty.Value → ScalarValue
  | .int4, v => .int4 v
  | .int8, v => .int8 v
  | .text, s => .text s
  | .bool, b => .bool b
  | .timestamp, v => .timestamp v
  | .timestampTz, v => .timestampTz v
  | .date, v => .date v
  | .period, p => .period p.1 p.2
  | .uuid, raw => .uuid raw
  | .bytea, raw => .bytea raw
  | .float8, bits => .float8 bits

/-- The type of a value. -/
def ScalarValue.logicalType : ScalarValue → LogicalType
  | int4 _ => .int4
  | int8 _ => .int8
  | text _ => .text
  | bool _ => .bool
  | timestamp _ => .timestamp
  | timestampTz _ => .timestampTz
  | date _ => .date
  | period .. => .period
  | uuid _ => .uuid
  | bytea _ => .bytea
  | float8 _ => .float8

/-- The content of a value's cell. -/
def ScalarValue.content : (value : ScalarValue) → value.logicalType.Value
  | int4 v | int8 v | timestamp v | timestampTz v | date v => v
  | text s => s
  | bool b => b
  | period start stop => (start, stop)
  | uuid raw => raw
  | bytea raw => raw
  | float8 bits => bits

/-- A column of nullable cells of one type. -/
structure Vector where
  /-- The type of the cells. -/
  logicalType : LogicalType
  /-- The cells, `none` for `NULL`. -/
  cells : List (Option logicalType.Value)

namespace Vector

/-- The number of cells. -/
def len (v : Vector) : ℕ := v.cells.length

/-- The cell of a row as a value. -/
def get (v : Vector) (row : ℕ) : Option ScalarValue :=
  v.cells[row]?.join.map v.logicalType.scalar

/-- The cells of given rows, `NULL` where no row is given. -/
def gather (v : Vector) (rows : List (Option ℕ)) : Vector :=
  ⟨v.logicalType, rows.map fun slot => slot.bind fun r => v.cells[r]?.join⟩

end Vector

/-! ### Kernels -/

/-- A constant for every row. -/
def broadcast (value : ScalarValue) (rows : ℕ) : Vector :=
  ⟨value.logicalType, List.replicate rows (some value.content)⟩

/-- The shape of a strict kernel: `NULL` where a cell of either side is. -/
def zipCells {α β γ : Type} (f : α → β → Option γ) (a : List (Option α)) (b : List (Option β)) :
    List (Option γ) :=
  List.zipWith (fun x y => match x, y with
    | some x, some y => f x y
    | _, _ => none) a b

/-- What a comparison reports of an ordering. -/
def applyCmp : CmpOp → Ordering → Bool
  | .eq, o => o = .eq
  | .ne, o => o ≠ .eq
  | .lt, o => o = .lt
  | .le, o => o ≠ .gt
  | .gt, o => o = .gt
  | .ge, o => o ≠ .lt

/-- Compare cells in a given order. -/
def compareCells {α : Type} (order : α → α → Ordering) (op : CmpOp) (a b : List (Option α)) :
    List (Option Bool) :=
  zipCells (fun x y => some (applyCmp op (order x y))) a b

/-- The type takes part in comparisons across types. -/
def isNumeric (v : Vector) : Bool :=
  match v.logicalType with
  | .int4 | .int8 | .float8 => true
  | _ => false

/-- The cells of an integer vector as `i64`. -/
def asI64Cells : Vector → List (Option ℤ)
  | ⟨.int4, cells⟩ => cells
  | ⟨.int8, cells⟩ => cells
  | _ => []

/-- The cells of a numeric vector as doubles. -/
def asF64Cells : Vector → List (Option ℕ)
  | ⟨.int4, cells⟩ => cells.map (Option.map f64OfInt)
  | ⟨.int8, cells⟩ => cells.map (Option.map f64OfInt)
  | ⟨.float8, cells⟩ => cells
  | _ => []

/-- Compare two vectors: of one type in the order of the type, of two numeric types in the wider
one. -/
def compareVectors (op : CmpOp) (left right : Vector) : Except ExprError Vector :=
  match left, right with
  | ⟨.int4, a⟩, ⟨.int4, b⟩ => .ok ⟨.bool, compareCells cmp op a b⟩
  | ⟨.date, a⟩, ⟨.date, b⟩ => .ok ⟨.bool, compareCells cmp op a b⟩
  | ⟨.int8, a⟩, ⟨.int8, b⟩ => .ok ⟨.bool, compareCells cmp op a b⟩
  | ⟨.timestamp, a⟩, ⟨.timestamp, b⟩ => .ok ⟨.bool, compareCells cmp op a b⟩
  | ⟨.timestampTz, a⟩, ⟨.timestampTz, b⟩ => .ok ⟨.bool, compareCells cmp op a b⟩
  | ⟨.bool, a⟩, ⟨.bool, b⟩ => .ok ⟨.bool, compareCells cmp op a b⟩
  | ⟨.text, a⟩, ⟨.text, b⟩ => .ok ⟨.bool, compareCells cmp op a b⟩
  | ⟨.uuid, a⟩, ⟨.uuid, b⟩ => .ok ⟨.bool, compareCells cmp op a b⟩
  | ⟨.bytea, a⟩, ⟨.bytea, b⟩ => .ok ⟨.bool, compareCells cmp op a b⟩
  | ⟨.period, a⟩, ⟨.period, b⟩ => .ok ⟨.bool, compareCells cmpPeriod op a b⟩
  | l, r =>
    if isNumeric l && isNumeric r then
      if l.logicalType = .float8 ∨ r.logicalType = .float8 then
        .ok ⟨.bool, compareCells totalCmp op (asF64Cells l) (asF64Cells r)⟩
      else .ok ⟨.bool, compareCells cmp op (asI64Cells l) (asI64Cells r)⟩
    else .error (.compareTypeMismatch l.logicalType r.logicalType)

/-- A predicate over two half-open periods. -/
def evaluate (pred : PeriodPredicate) (a b : ℤ × ℤ) : Bool :=
  match pred with
  | .contains => a.1 ≤ b.1 && b.2 ≤ a.2
  | .overlaps => a.1 < b.2 && b.1 < a.2
  | .equals => a.1 = b.1 && a.2 = b.2
  | .precedes => a.2 ≤ b.1
  | .succeeds => b.2 ≤ a.1
  | .immediatelyPrecedes => a.2 = b.1
  | .immediatelySucceeds => a.1 = b.2

/-- A period predicate over two vectors. -/
def period (pred : PeriodPredicate) (left right : Vector) : Except ExprError Vector :=
  match left, right with
  | ⟨.period, a⟩, ⟨.period, b⟩ => .ok ⟨.bool, zipCells (fun x y => some (evaluate pred x y)) a b⟩
  | l, r =>
    .error (.periodOperand (if l.logicalType = .period then r.logicalType else l.logicalType))

/-- The instants of a vector that can bound a period. -/
def instantCells : Vector → Except ExprError (List (Option ℤ))
  | ⟨.int8, cells⟩ => .ok cells
  | ⟨.timestamp, cells⟩ => .ok cells
  | ⟨.timestampTz, cells⟩ => .ok cells
  | other => .error (.periodEndpointType other.logicalType)

/-- The period of two instants, unless it is empty. -/
def newInterval (start stop : ℤ) : Option (ℤ × ℤ) :=
  if start < stop then some (start, stop) else none

/-- The periods between two vectors of instants. -/
def makePeriod (start stop : Vector) : Except ExprError Vector := do
  let f ← instantCells start
  let t ← instantCells stop
  .ok ⟨.period, zipCells newInterval f t⟩

/-- The truth table of `AND`. -/
def and3 : Option Bool → Option Bool → Option Bool
  | some false, _ => some false
  | _, some false => some false
  | some true, some true => some true
  | _, _ => none

/-- The truth table of `OR`. -/
def or3 : Option Bool → Option Bool → Option Bool
  | some true, _ => some true
  | _, some true => some true
  | some false, some false => some false
  | _, _ => none

/-- The name of a connective. -/
def LogicOp.keyword : LogicOp → String
  | .and => "AND"
  | .or => "OR"

/-- The truth table of a connective. -/
def LogicOp.table : LogicOp → Option Bool → Option Bool → Option Bool
  | .and => and3
  | .or => or3

/-- A connective over two vectors. -/
def logic (op : LogicOp) (left right : Vector) : Except ExprError Vector :=
  match left, right with
  | ⟨.bool, a⟩, ⟨.bool, b⟩ => .ok ⟨.bool, List.zipWith op.table a b⟩
  | l, r =>
    .error (.notBoolean op.keyword (if l.logicalType = .bool then r.logicalType else l.logicalType))

/-- `NOT` of a vector. -/
def notVector : Vector → Except ExprError Vector
  | ⟨.bool, cells⟩ => .ok ⟨.bool, cells.map (Option.map (!·))⟩
  | operand => .error (.notBoolean "NOT" operand.logicalType)

/-- `IS NULL` of a vector. -/
def isNullVector (operand : Vector) : Vector :=
  ⟨.bool, operand.cells.map fun c => some c.isNone⟩

/-- The value, if it fits a signed integer of `bits` bits. -/
def narrow (bits : ℕ) (x : ℤ) : Option ℤ :=
  if -2 ^ (bits - 1) ≤ x ∧ x < 2 ^ (bits - 1) then some x else none

/-- Checked arithmetic in signed integers of `bits` bits.  A remainder overflows where its quotient
does. -/
def checkedArith (bits : ℕ) : ArithOp → ℤ → ℤ → Option ℤ
  | .add, a, b => narrow bits (a + b)
  | .sub, a, b => narrow bits (a - b)
  | .mul, a, b => narrow bits (a * b)
  | .div, a, b => if b = 0 then none else narrow bits (a.tdiv b)
  | .mod, a, b => if b = 0 then none else (narrow bits (a.tdiv b)).map fun _ => a.tmod b

/-- Arithmetic over two vectors of one integer type. -/
def arith (op : ArithOp) (left right : Vector) : Except ExprError Vector :=
  match left, right with
  | ⟨.int4, a⟩, ⟨.int4, b⟩ => .ok ⟨.int4, zipCells (checkedArith 32 op) a b⟩
  | ⟨.int8, a⟩, ⟨.int8, b⟩ => .ok ⟨.int8, zipCells (checkedArith 64 op) a b⟩
  | l, r => .error (.arithTypeMismatch l.logicalType r.logicalType)

/-- Evaluate an expression over columns of `rows` rows. -/
def evalExpr : Expr → List Vector → ℕ → Except ExprError Vector
  | .column index, columns, rows =>
    match columns[index]? with
    | none => .error (.columnOutOfRange index columns.length)
    | some col =>
      if col.len ≠ rows then .error (.lengthMismatch index rows col.len) else .ok col
  | .literal value, _, rows => .ok (broadcast value rows)
  | .not operand, columns, rows => do notVector (← evalExpr operand columns rows)
  | .isNull operand, columns, rows => do
    let v ← evalExpr operand columns rows
    .ok (isNullVector v)
  | .compare op left right, columns, rows => do
    let l ← evalExpr left columns rows
    let r ← evalExpr right columns rows
    compareVectors op l r
  | .logic op left right, columns, rows => do
    let l ← evalExpr left columns rows
    let r ← evalExpr right columns rows
    logic op l r
  | .arith op left right, columns, rows => do
    let l ← evalExpr left columns rows
    let r ← evalExpr right columns rows
    arith op l r
  | .period pred left right, columns, rows => do
    let l ← evalExpr left columns rows
    let r ← evalExpr right columns rows
    period pred l r
  | .makePeriod start stop, columns, rows => do
    let f ← evalExpr start columns rows
    let t ← evalExpr stop columns rows
    makePeriod f t

/-! ### Types -/

/-- Values of the two types can be compared. -/
def comparable (l r : LogicalType) : Bool :=
  l = r || (l ∈ [.int4, .int8, .float8] && r ∈ [.int4, .int8, .float8])

/-- The type can bound a period. -/
def isInstant (ty : LogicalType) : Bool := ty ∈ [.int8, .timestamp, .timestampTz]

/-- The type of a comparison. -/
def compareType (l r : LogicalType) : Except ExprError LogicalType :=
  if comparable l r then .ok .bool else .error (.compareTypeMismatch l r)

/-- The type of a connective. -/
def logicType (op : LogicOp) (l r : LogicalType) : Except ExprError LogicalType :=
  if l = .bool ∧ r = .bool then .ok .bool
  else .error (.notBoolean op.keyword (if l = .bool then r else l))

/-- The type of a negation. -/
def notType (ty : LogicalType) : Except ExprError LogicalType :=
  if ty = .bool then .ok .bool else .error (.notBoolean "NOT" ty)

/-- The type of a sum, a product and so on. -/
def arithType (l r : LogicalType) : Except ExprError LogicalType :=
  if l = r ∧ (l = .int4 ∨ l = .int8) then .ok l else .error (.arithTypeMismatch l r)

/-- The type of a period predicate. -/
def periodType (l r : LogicalType) : Except ExprError LogicalType :=
  if l = .period ∧ r = .period then .ok .bool
  else .error (.periodOperand (if l = .period then r else l))

/-- The type of `PERIOD(from, to)`. -/
def makePeriodType (start stop : LogicalType) : Except ExprError LogicalType :=
  if !isInstant start then .error (.periodEndpointType start)
  else if !isInstant stop then .error (.periodEndpointType stop)
  else .ok .period

/-- The type of an expression over columns of given types. -/
def exprType : Expr → List LogicalType → Except ExprError LogicalType
  | .column index, types =>
    match types[index]? with
    | none => .error (.columnOutOfRange index types.length)
    | some ty => .ok ty
  | .literal value, _ => .ok value.logicalType
  | .not operand, types => do notType (← exprType operand types)
  | .isNull operand, types => do
    let _ ← exprType operand types
    .ok .bool
  | .compare _ left right, types => do compareType (← exprType left types) (← exprType right types)
  | .logic op left right, types => do logicType op (← exprType left types) (← exprType right types)
  | .arith _ left right, types => do arithType (← exprType left types) (← exprType right types)
  | .period _ left right, types => do periodType (← exprType left types) (← exprType right types)
  | .makePeriod start stop, types => do
    makePeriodType (← exprType start types) (← exprType stop types)

/-! ### One row at a time -/

namespace ScalarValue

/-- The truth value in a value. -/
def asBool : ScalarValue → Option Bool
  | bool b => some b
  | _ => none

/-- The period in a value. -/
def asPeriod : ScalarValue → Option (ℤ × ℤ)
  | period start stop => some (start, stop)
  | _ => none

/-- The instant in a value that can bound a period. -/
def asInstant : ScalarValue → Option ℤ
  | int8 v | timestamp v | timestampTz v => some v
  | _ => none

/-- A numeric value as a double. -/
def asF64 : ScalarValue → Option ℕ
  | int4 v | int8 v => some (f64OfInt v)
  | float8 bits => some bits
  | _ => none

/-- How two values compare: of one type in the order of the type, numbers of two types in the
wider one. -/
def order (a b : ScalarValue) : Option Ordering :=
  match a, b with
  | int4 x, int4 y | int4 x, int8 y | int8 x, int4 y | int8 x, int8 y => some (cmp x y)
  | date x, date y | timestamp x, timestamp y | timestampTz x, timestampTz y => some (cmp x y)
  | bool x, bool y => some (cmp x y)
  | text x, text y | uuid x, uuid y | bytea x, bytea y => some (cmp x y)
  | period x x', period y y' => some (cmpPeriod (x, x') (y, y'))
  | x, y => do
    let x ← x.asF64
    let y ← y.asF64
    some (totalCmp x y)

/-- A comparison of two values. -/
def compare (op : CmpOp) (a b : ScalarValue) : Option ScalarValue :=
  (a.order b).map fun o => bool (applyCmp op o)

/-- Exact arithmetic of two integers of one type, if the result is of the type. -/
def arith (op : ArithOp) (a b : ScalarValue) : Option ScalarValue :=
  match a, b with
  | int4 x, int4 y => (checkedArith 32 op x y).map int4
  | int8 x, int8 y => (checkedArith 64 op x y).map int8
  | _, _ => none

/-- A predicate over two periods. -/
def holds (pred : PeriodPredicate) (a b : ScalarValue) : Option ScalarValue := do
  let x ← a.asPeriod
  let y ← b.asPeriod
  some (bool (evaluate pred x y))

/-- The period between two instants. -/
def makePeriod (a b : ScalarValue) : Option ScalarValue := do
  let x ← a.asInstant
  let y ← b.asInstant
  (newInterval x y).map fun p => period p.1 p.2

end ScalarValue

/-- The truth value of a nullable value. -/
def truth (x : Option ScalarValue) : Option Bool := x.bind ScalarValue.asBool

/-- A function of two values, `NULL` if one of them is. -/
def strict (f : ScalarValue → ScalarValue → Option ScalarValue) (x y : Option ScalarValue) :
    Option ScalarValue :=
  x.bind fun x => y.bind (f x)

/-- The value of an expression for one row. -/
def evalRow : Expr → List (Option ScalarValue) → Option ScalarValue
  | .column index, row => row[index]?.join
  | .literal value, _ => some value
  | .not operand, row => (truth (evalRow operand row)).map fun b => .bool !b
  | .isNull operand, row => some (.bool (evalRow operand row).isNone)
  | .compare op left right, row =>
    strict (ScalarValue.compare op) (evalRow left row) (evalRow right row)
  | .logic op left right, row =>
    (op.table (truth (evalRow left row)) (truth (evalRow right row))).map .bool
  | .arith op left right, row =>
    strict (ScalarValue.arith op) (evalRow left row) (evalRow right row)
  | .period pred left right, row =>
    strict (ScalarValue.holds pred) (evalRow left row) (evalRow right row)
  | .makePeriod start stop, row =>
    strict ScalarValue.makePeriod (evalRow start row) (evalRow stop row)

/-- The type of an expression is that of the columns it reads. -/
theorem exprType_congr {e : Expr} {types types' : List LogicalType}
    (hlen : types.length = types'.length)
    (h : ∀ i ∈ e.collectColumns, types[i]? = types'[i]?) :
    exprType e types = exprType e types' := by
  induction e with
  | column index => simp only [exprType, h index (List.mem_singleton.2 rfl), hlen]
  | literal value => rfl
  | not operand ih | isNull operand ih => simp only [exprType, ih h]
  | compare op left right ihl ihr | logic op left right ihl ihr | arith op left right ihl ihr
  | period op left right ihl ihr | makePeriod left right ihl ihr =>
    simp only [exprType, ihl fun i hi => h i (List.mem_append_left _ hi),
      ihr fun i hi => h i (List.mem_append_right _ hi)]

/-- The value of an expression is that of the cells it reads. -/
theorem evalRow_congr {e : Expr} {row row' : List (Option ScalarValue)}
    (h : ∀ i ∈ e.collectColumns, row[i]? = row'[i]?) : evalRow e row = evalRow e row' := by
  induction e with
  | column index => simp only [evalRow, h index (List.mem_singleton.2 rfl)]
  | literal value => rfl
  | not operand ih | isNull operand ih => simp only [evalRow, ih h]
  | compare op left right ihl ihr | logic op left right ihl ihr | arith op left right ihl ihr
  | period op left right ihl ihr | makePeriod left right ihl ihr =>
    simp only [evalRow, ihl fun i hi => h i (List.mem_append_left _ hi),
      ihr fun i hi => h i (List.mem_append_right _ hi)]

/-! ### The vector of an expression -/

/-- The vector is `rows` long and its cells are the values of a function. -/
structure Vector.Holds (v : Vector) (rows : ℕ) (f : ℕ → Option ScalarValue) : Prop where
  len : v.len = rows
  get : ∀ i < rows, v.get i = f i

/-- A computation fails as its type check does, or gives a vector of the checked type with the
values of a function. -/
def Yields (r : Except ExprError Vector) (t : Except ExprError LogicalType) (rows : ℕ)
    (f : ℕ → Option ScalarValue) : Prop :=
  (∃ e, r = .error e ∧ t = .error e) ∨ ∃ v, r = .ok v ∧ t = .ok v.logicalType ∧ v.Holds rows f

namespace Yields

variable {rows : ℕ} {f g : ℕ → Option ScalarValue}

theorem fail (e : ExprError) : Yields (.error e) (.error e) rows f := .inl ⟨e, rfl, rfl⟩

theorem bind {r : Except ExprError Vector} {t : Except ExprError LogicalType}
    (h : Yields r t rows f) {k : Vector → Except ExprError Vector}
    {kt : LogicalType → Except ExprError LogicalType}
    (hk : ∀ v : Vector, v.Holds rows f → Yields (k v) (kt v.logicalType) rows g) :
    Yields (r >>= k) (t >>= kt) rows g := by
  rcases h with ⟨e, rfl, rfl⟩ | ⟨v, rfl, rfl, hv⟩
  · exact fail e
  · exact hk v hv

/-- Two operands, evaluated one after the other. -/
theorem bind₂ {r₁ r₂ : Except ExprError Vector} {t₁ t₂ : Except ExprError LogicalType}
    {f₁ f₂ : ℕ → Option ScalarValue} (h₁ : Yields r₁ t₁ rows f₁) (h₂ : Yields r₂ t₂ rows f₂)
    {k : Vector → Vector → Except ExprError Vector}
    {kt : LogicalType → LogicalType → Except ExprError LogicalType}
    (hk : ∀ l r : Vector, l.Holds rows f₁ → r.Holds rows f₂ →
      Yields (k l r) (kt l.logicalType r.logicalType) rows g) :
    Yields (do let l ← r₁; let r ← r₂; k l r) (do let l ← t₁; let r ← t₂; kt l r) rows g :=
  h₁.bind fun l hl => h₂.bind fun r hr => hk l r hl hr

theorem congr {r : Except ExprError Vector} {t : Except ExprError LogicalType}
    (h : Yields r t rows f) (hfg : ∀ i < rows, f i = g i) : Yields r t rows g := by
  rcases h with h | ⟨v, hr, ht, hv⟩
  · exact .inl h
  · exact .inr ⟨v, hr, ht, hv.len, fun i hi => (hv.get i hi).trans (hfg i hi)⟩

end Yields

section Kernels

variable {rows : ℕ} {f₁ f₂ : ℕ → Option ScalarValue} {l r : Vector}

/-! #### Cells -/

theorem cell_zipCells {α β γ : Type} (f : α → β → Option γ) (a : List (Option α))
    (b : List (Option β)) (i : ℕ) :
    (zipCells f a b)[i]?.join = a[i]?.join.bind fun x => b[i]?.join.bind (f x) := by
  rw [zipCells, List.getElem?_zipWith]
  rcases a[i]? with _ | _ | x <;> rcases b[i]? with _ | _ | y <;> rfl

theorem length_zipCells {α β γ : Type} (f : α → β → Option γ) (a : List (Option α))
    (b : List (Option β)) : (zipCells f a b).length = min a.length b.length :=
  List.length_zipWith

theorem zipCells_map_left {α α' β γ : Type} (f : α' → β → Option γ) (p : α → α')
    (a : List (Option α)) (b : List (Option β)) :
    zipCells f (a.map (Option.map p)) b = zipCells (fun x y => f (p x) y) a b := by
  rw [zipCells, List.zipWith_map_left, zipCells]
  congr 1
  funext x y
  cases x <;> cases y <;> rfl

theorem zipCells_map_right {α β β' γ : Type} (f : α → β' → Option γ) (q : β → β')
    (a : List (Option α)) (b : List (Option β)) :
    zipCells f a (b.map (Option.map q)) = zipCells (fun x y => f x (q y)) a b := by
  rw [zipCells, List.zipWith_map_right, zipCells]
  congr 1
  funext x y
  cases x <;> cases y <;> rfl

namespace Vector.Holds

/-- A position inside a vector has a cell. -/
theorem cell {ty : LogicalType} {a : List (Option ty.Value)} (h : Vector.Holds ⟨ty, a⟩ rows f₁)
    {i : ℕ} (hi : i < rows) : ∃ c, a[i]? = some c ∧ f₁ i = c.map ty.scalar := by
  have hlen : i < a.length := by
    rw [show a.length = rows from h.len]
    exact hi
  refine ⟨a[i], List.getElem?_eq_getElem hlen, ?_⟩
  rw [← h.get i hi, Vector.get, List.getElem?_eq_getElem hlen]
  rfl

/-- A strict kernel holds at each position what it does to the two cells there. -/
theorem zipCells {tl tr ty : LogicalType} {a : List (Option tl.Value)}
    {b : List (Option tr.Value)} (hl : Vector.Holds ⟨tl, a⟩ rows f₁)
    (hr : Vector.Holds ⟨tr, b⟩ rows f₂) (f : tl.Value → tr.Value → Option ty.Value)
    {g : ScalarValue → ScalarValue → Option ScalarValue}
    (hfg : ∀ x y, g (tl.scalar x) (tr.scalar y) = (f x y).map ty.scalar) :
    Vector.Holds ⟨ty, SteleDb.zipCells f a b⟩ rows fun i => strict g (f₁ i) (f₂ i) where
  len := by
    have ha : a.length = rows := hl.len
    have hb : b.length = rows := hr.len
    rw [Vector.len, length_zipCells, ha, hb, Nat.min_self]
  get := by
    intro i hi
    rw [← hl.get i hi, ← hr.get i hi, Vector.get, cell_zipCells]
    simp only [Vector.get, strict]
    rcases a[i]?.join with _ | x
    · rfl
    · rcases b[i]?.join with _ | y
      · rfl
      · exact (hfg x y).symm

theorem map {tl : LogicalType} {a : List (Option tl.Value)} (hl : Vector.Holds ⟨tl, a⟩ rows f₁)
    (ty : LogicalType) {f : Option tl.Value → Option ty.Value}
    {g : Option ScalarValue → Option ScalarValue}
    (hfg : ∀ x, g (x.map tl.scalar) = (f x).map ty.scalar) :
    Vector.Holds ⟨ty, a.map f⟩ rows fun i => g (f₁ i) where
  len := by
    rw [Vector.len, List.length_map]
    exact hl.len
  get := by
    intro i hi
    obtain ⟨c, hc, hf⟩ := hl.cell hi
    rw [Vector.get, List.getElem?_map, hc, hf, hfg]
    rfl

end Vector.Holds

/-! #### Kernels -/

/-- A kernel that keeps its type and computes cell by cell. -/
theorem Yields.of_holds {v : Vector} (h : v.Holds rows f₁) :
    Yields (.ok v) (.ok v.logicalType) rows f₁ := .inr ⟨v, rfl, rfl, h⟩

theorem holds_broadcast (value : ScalarValue) (rows : ℕ) :
    (broadcast value rows).Holds rows fun _ => some value where
  len := List.length_replicate
  get := by
    intro i hi
    rw [Vector.get, broadcast, List.getElem?_replicate_of_lt hi]
    cases value <;> rfl

theorem yields_compare (op : CmpOp) (hl : l.Holds rows f₁) (hr : r.Holds rows f₂) :
    Yields (compareVectors op l r) (compareType l.logicalType r.logicalType) rows
      fun i => strict (ScalarValue.compare op) (f₁ i) (f₂ i) := by
  obtain ⟨tl, a⟩ := l
  obtain ⟨tr, b⟩ := r
  -- an integer and a double are compared as doubles
  have hleft : ∀ {tl : LogicalType} {p : tl.Value → ℕ} {a : List (Option tl.Value)}
      {b : List (Option LogicalType.float8.Value)}, Vector.Holds ⟨tl, a⟩ rows f₁ →
      Vector.Holds ⟨.float8, b⟩ rows f₂ →
      (∀ x y, (tl.scalar x).order (.float8 y) = some (totalCmp (p x) y)) →
      Vector.Holds ⟨.bool, compareCells totalCmp op (a.map (Option.map p)) b⟩ rows
        fun i => strict (ScalarValue.compare op) (f₁ i) (f₂ i) := by
    intro tl p a b hl hr hp
    rw [compareCells, zipCells_map_left]
    refine hl.zipCells hr _ fun x y => ?_
    rw [ScalarValue.compare, show LogicalType.float8.scalar y = .float8 y from rfl, hp]
    rfl
  have hright : ∀ {tr : LogicalType} {q : tr.Value → ℕ}
      {a : List (Option LogicalType.float8.Value)} {b : List (Option tr.Value)},
      Vector.Holds ⟨.float8, a⟩ rows f₁ → Vector.Holds ⟨tr, b⟩ rows f₂ →
      (∀ x y, (ScalarValue.float8 x).order (tr.scalar y) = some (totalCmp x (q y))) →
      Vector.Holds ⟨.bool, compareCells totalCmp op a (b.map (Option.map q))⟩ rows
        fun i => strict (ScalarValue.compare op) (f₁ i) (f₂ i) := by
    intro tr q a b hl hr hq
    rw [compareCells, zipCells_map_right]
    refine hl.zipCells hr _ fun x y => ?_
    rw [ScalarValue.compare, show LogicalType.float8.scalar x = .float8 x from rfl, hq]
    rfl
  cases tl <;> cases tr
  all_goals first
    | exact .fail _
    | exact .of_holds (hl.zipCells hr _ fun x y => rfl)
    | exact .of_holds (hleft hl hr fun x y => rfl)
    | exact .of_holds (hright hl hr fun x y => rfl)

theorem yields_period (pred : PeriodPredicate) (hl : l.Holds rows f₁) (hr : r.Holds rows f₂) :
    Yields (period pred l r) (periodType l.logicalType r.logicalType) rows
      fun i => strict (ScalarValue.holds pred) (f₁ i) (f₂ i) := by
  obtain ⟨tl, a⟩ := l
  obtain ⟨tr, b⟩ := r
  cases tl <;> cases tr
  all_goals first
    | exact .fail _
    | exact .of_holds (hl.zipCells hr _ fun x y => rfl)

theorem yields_arith (op : ArithOp) (hl : l.Holds rows f₁) (hr : r.Holds rows f₂) :
    Yields (arith op l r) (arithType l.logicalType r.logicalType) rows
      fun i => strict (ScalarValue.arith op) (f₁ i) (f₂ i) := by
  obtain ⟨tl, a⟩ := l
  obtain ⟨tr, b⟩ := r
  cases tl <;> cases tr
  all_goals first
    | exact .fail _
    | exact .of_holds (hl.zipCells hr _ fun x y => rfl)

theorem yields_makePeriod (hl : l.Holds rows f₁) (hr : r.Holds rows f₂) :
    Yields (makePeriod l r) (makePeriodType l.logicalType r.logicalType) rows
      fun i => strict ScalarValue.makePeriod (f₁ i) (f₂ i) := by
  obtain ⟨tl, a⟩ := l
  obtain ⟨tr, b⟩ := r
  cases tl <;> cases tr
  all_goals first
    | exact .fail _
    | exact .of_holds (v := ⟨.period, zipCells newInterval a b⟩)
        (hl.zipCells hr _ fun x y => rfl)

theorem yields_logic (op : LogicOp) (hl : l.Holds rows f₁) (hr : r.Holds rows f₂) :
    Yields (logic op l r) (logicType op l.logicalType r.logicalType) rows
      fun i => (op.table (truth (f₁ i)) (truth (f₂ i))).map .bool := by
  obtain ⟨tl, a⟩ := l
  obtain ⟨tr, b⟩ := r
  by_cases hb : tl = .bool ∧ tr = .bool
  · obtain ⟨rfl, rfl⟩ := hb
    have ha : a.length = rows := hl.len
    have hb : b.length = rows := hr.len
    refine .of_holds (v := ⟨.bool, List.zipWith op.table a b⟩) ⟨?_, fun i hi => ?_⟩
    · rw [Vector.len, List.length_zipWith, ha, hb, Nat.min_self]
    · obtain ⟨x, hx, hfx⟩ := hl.cell hi
      obtain ⟨y, hy, hfy⟩ := hr.cell hi
      -- a truth value read back from its cell is itself
      have hread : ∀ c : Option Bool, truth (c.map LogicalType.bool.scalar) = c := by
        intro c
        cases c <;> rfl
      rw [Vector.get, List.getElem?_zipWith, hx, hy, hfx, hfy, hread, hread]
      rfl
  · cases tl <;> cases tr
    all_goals first
      | exact .fail _
      | exact absurd ⟨rfl, rfl⟩ hb

theorem yields_not (hl : l.Holds rows f₁) :
    Yields (notVector l) (notType l.logicalType) rows
      fun i => (truth (f₁ i)).map fun b => .bool !b := by
  obtain ⟨tl, a⟩ := l
  cases tl
  case bool =>
    have hneg := hl.map .bool (f := Option.map (!·)) (g := fun x => (truth x).map fun b => .bool !b)
      fun x => by cases x <;> rfl
    exact .of_holds (v := ⟨.bool, a.map (Option.map (!·))⟩) hneg
  all_goals exact .fail _

theorem holds_isNull (hl : l.Holds rows f₁) :
    (isNullVector l).Holds rows fun i => some (.bool (f₁ i).isNone) :=
  hl.map .bool (f := fun c => some c.isNone) (g := fun c => some (.bool c.isNone))
    fun x => by cases x <;> rfl

end Kernels

/-- **The vector of an expression** has the type of the expression and holds at each position its
value for the row there; the evaluator fails exactly when the expression has no type. -/
theorem evalExpr_yields (e : Expr) {columns : List Vector} {rows : ℕ}
    (h : ∀ i ∈ e.collectColumns, ∀ v, columns[i]? = some v → v.len = rows) :
    Yields (evalExpr e columns rows) (exprType e (columns.map Vector.logicalType)) rows
      fun i => evalRow e (columns.map (·.get i)) := by
  induction e with
  | column index =>
    cases hc : columns[index]? with
    | none =>
      simp only [evalExpr, exprType, hc, List.getElem?_map, Option.map_none, List.length_map]
      exact .fail _
    | some col =>
      have hlen := h index (List.mem_singleton.2 rfl) col hc
      simp only [evalExpr, exprType, hc, List.getElem?_map, Option.map_some, hlen, ne_eq,
        not_true_eq_false, if_false]
      refine .of_holds ⟨hlen, fun i _ => ?_⟩
      rw [evalRow, List.getElem?_map, hc]
      rfl
  | literal value => exact .of_holds (holds_broadcast value rows)
  | not operand ih => exact (ih h).bind fun v hv => yields_not hv
  | isNull operand ih => exact (ih h).bind fun v hv => .of_holds (holds_isNull hv)
  | compare op left right ihl ihr =>
    exact (ihl fun i hi => h i (List.mem_append_left _ hi)).bind₂
      (ihr fun i hi => h i (List.mem_append_right _ hi)) fun l r hl hr => yields_compare op hl hr
  | logic op left right ihl ihr =>
    exact (ihl fun i hi => h i (List.mem_append_left _ hi)).bind₂
      (ihr fun i hi => h i (List.mem_append_right _ hi)) fun l r hl hr => yields_logic op hl hr
  | arith op left right ihl ihr =>
    exact (ihl fun i hi => h i (List.mem_append_left _ hi)).bind₂
      (ihr fun i hi => h i (List.mem_append_right _ hi)) fun l r hl hr => yields_arith op hl hr
  | period pred left right ihl ihr =>
    exact (ihl fun i hi => h i (List.mem_append_left _ hi)).bind₂
      (ihr fun i hi => h i (List.mem_append_right _ hi)) fun l r hl hr => yields_period pred hl hr
  | makePeriod start stop ihl ihr =>
    exact (ihl fun i hi => h i (List.mem_append_left _ hi)).bind₂
      (ihr fun i hi => h i (List.mem_append_right _ hi)) fun l r hl hr => yields_makePeriod hl hr

end SteleDb
