import SteleDb.Lib.ExceptMap
import SteleDb.Lib.Grouping
import SteleDb.Exec.VectorJoin

/-!
# Grouping and aggregates

`hashAggregate` evaluates the grouping keys and the arguments of the aggregates over a whole batch,
files the rows under their encoded key tuples and folds each row into the accumulators of its
group.  The groups come out in the order of the encoded tuples.

`IsGrouping` is what that means: one group for each distinct tuple of key values, and for each group
and aggregate the value that the rows of the group have (`AggValue`).

* `isGrouping_hashAggregate` : the output is the grouping of its input;
* `IsGrouping.unique` : a grouping is determined by the rows, not by their order.
-/

namespace SteleDb

/-! ### Aggregates -/

/-- An aggregate function. -/
inductive AggregateFunc where
  | count
  | sum
  | min
  | max
  | avg
  deriving DecidableEq, Repr

/-- An aggregate of a query; only `COUNT(*)` has no argument. -/
structure Aggregator where
  /-- The function. -/
  func : AggregateFunc
  /-- The argument. -/
  arg : Option Expr
  deriving DecidableEq, Repr

/-- The state of an aggregate over the rows seen so far.  The numbers are an `i64` and an `i128` of
the source, which the number of rows of a batch does not let overflow. -/
inductive Acc where
  /-- The rows counted. -/
  | count (n : ℤ)
  /-- The total, and whether there was a value. -/
  | sum (acc : ℤ) (any : Bool)
  /-- The total, and the number of values. -/
  | avg (acc count : ℤ)
  /-- The row with the least value. -/
  | min (row : Option ℕ)
  /-- The row with the greatest value. -/
  | max (row : Option ℕ)
  deriving DecidableEq, Repr

/-- The quotient of two doubles; dividend, divisor and result are normal numbers, or the dividend is
zero. -/
def f64Quotient (a b : ℕ) : ℕ :=
  if a % 2 ^ 63 = 0 then 0
  else
    let m := 2 ^ 52 + a % 2 ^ 52
    let m' := 2 ^ 52 + b % 2 ^ 52
    let e : ℤ := (a % 2 ^ 63 / 2 ^ 52 : ℕ) - (b % 2 ^ 63 / 2 ^ 52 : ℕ) + 1023
    let sign := if a < 2 ^ 63 ↔ b < 2 ^ 63 then 0 else 2 ^ 63
    if m' ≤ m then sign + e.toNat * 2 ^ 52 + (roundHalfEven (m * 2 ^ 52) m' - 2 ^ 52)
    else sign + (e - 1).toNat * 2 ^ 52 + (roundHalfEven (m * 2 ^ 53) m' - 2 ^ 52)

/-- The total order of the values of a type.  `float8`, which no column holds, has no arm. -/
def scalarCmp (a b : ScalarValue) : Option Ordering :=
  match a, b with
  | .int4 x, .int4 y | .date x, .date y => some (cmp x y)
  | .int8 x, .int8 y | .timestamp x, .timestamp y | .timestampTz x, .timestampTz y =>
    some (cmp x y)
  | .bool x, .bool y => some (cmp x y)
  | .text x, .text y => some (cmp x y)
  | .uuid x, .uuid y => some (cmp x y)
  | .bytea x, .bytea y => some (cmp x y)
  | .period x x', .period y y' => some (cmpPeriod (x, x') (y, y'))
  | _, _ => none

/-- The value of an integer; the binder lets no other type through. -/
def scalarI128 : ScalarValue → ℤ
  | .int4 v | .int8 v => v
  | _ => 0

/-- The row with the extreme value, after row `r`. -/
def updateExtreme (row : Option ℕ) (arg : Option Vector) (r : ℕ) (want : Ordering) : Option ℕ :=
  match arg.bind (·.get r) with
  | none => row
  | some candidate =>
    match row with
    | none => some r
    | some best =>
      match arg.bind (·.get best) with
      | none => some best
      | some incumbent => if scalarCmp candidate incumbent = some want then some r else some best

namespace Acc

/-- The state before any row. -/
def new : AggregateFunc → Acc
  | .count => count 0
  | .sum => sum 0 false
  | .avg => avg 0 0
  | .min => min none
  | .max => max none

/-- The state after row `r`. -/
def accumulate (arg : Option Vector) (slot : Acc) (r : ℕ) : Acc :=
  match slot with
  | count n => if arg.all fun v => (v.get r).isSome then count (n + 1) else count n
  | sum acc any =>
    match arg.bind (·.get r) with
    | some value => sum (acc + scalarI128 value) true
    | none => sum acc any
  | avg acc n =>
    match arg.bind (·.get r) with
    | some value => avg (acc + scalarI128 value) (n + 1)
    | none => avg acc n
  | min row => min (updateExtreme row arg r .lt)
  | max row => max (updateExtreme row arg r .gt)

/-- The tally of a `COUNT`. -/
def countValue : Acc → ℤ
  | count n => n
  | _ => 0

/-- The total of a `SUM` as an `i64`, if there was a value and the total fits. -/
def sumValue : Acc → Option ℤ
  | sum acc any => if any then narrow 64 acc else none
  | _ => none

/-- The mean of an `AVG`, if there was a value. -/
def avgValue : Acc → Option ℕ
  | avg acc n => if n ≠ 0 then some (f64Quotient (f64OfInt acc) (f64OfInt n)) else none
  | _ => none

/-- The row of a `MIN` or a `MAX`. -/
def extremeRow : Acc → Option ℕ
  | min row | max row => row
  | _ => none

end Acc

/-! ### Groups -/

/-- The encoded cells of a key tuple; a `NULL` comes before every value. -/
abbrev GroupKey := List (WithBot Bytes)

instance GroupKey.transCmp : Std.TransCmp (@compare GroupKey LinearOrder.toOrd) :=
  inferInstance

/-- The encoding of a nullable value. -/
def encodeCell (cell : Option ScalarValue) : WithBot Bytes := cell.map encodeScalar

/-- The encoding of a tuple of values. -/
def encodeTuple (tuple : List (Option ScalarValue)) : GroupKey := tuple.map encodeCell

theorem encodeCell_inj {x y : Option ScalarValue} (hx : ∀ a, x = some a → a.Fits)
    (hy : ∀ b, y = some b → b.Fits)
    (hty : ∀ a b, x = some a → y = some b → a.logicalType = b.logicalType)
    (h : encodeCell x = encodeCell y) : x = y := by
  cases x with
  | none =>
    cases y with
    | none => rfl
    | some b => cases h
  | some a =>
    cases y with
    | none => cases h
    | some b =>
      exact congrArg some (ScalarValue.encode_inj (hx a rfl) (hy b rfl) (hty a b rfl rfl)
        (Option.some.inj h))

/-- A group under way: its first row and an accumulator for each aggregate. -/
structure GroupState where
  representative : ℕ
  accs : List Acc
  deriving DecidableEq, Repr

namespace GroupState

/-- A group with its first row, before it is counted. -/
def new (representative : ℕ) (aggregators : List Aggregator) : GroupState :=
  ⟨representative, aggregators.map fun a => .new a.func⟩

/-- Fold row `r` into the accumulators. -/
def accumulate (args : List (Option Vector)) (s : GroupState) (r : ℕ) : GroupState :=
  { s with accs := List.zipWith (fun slot arg => slot.accumulate arg r) s.accs args }

end GroupState

/-- The result of an aggregation. -/
structure AggregateOutput where
  /-- A column for each grouping key. -/
  groups : List Vector
  /-- A column for each aggregate. -/
  aggregates : List Vector
  /-- The number of groups. -/
  numGroups : ℕ

/-- The column of an aggregate, from the accumulator that each group has for it. -/
def buildAggregateColumn (func : AggregateFunc) (accs : List Acc) (arg : Option Vector) : Vector :=
  match func with
  | .count => ⟨.int8, accs.map fun a => some a.countValue⟩
  | .sum => ⟨.int8, accs.map Acc.sumValue⟩
  | .avg => ⟨.float8, accs.map Acc.avgValue⟩
  -- the binder gives every `MIN` and `MAX` an argument
  | .min | .max => (arg.getD ⟨.bool, []⟩).gather (accs.map Acc.extremeRow)

/-- The tuple of key values of a row. -/
def keysAt (keyVectors : List Vector) (r : ℕ) : List (Option ScalarValue) :=
  keyVectors.map (·.get r)

/-- The argument of an aggregate for every row. -/
def argVector (columns : List Vector) (rows : ℕ) (agg : Aggregator) :
    Except ExprError (Option Vector) :=
  match agg.arg with
  | none => .ok none
  | some e => (evalExpr e columns rows).map some

/-- Group rows and compute the aggregates of each group. -/
def hashAggregate (groupKeys : List Expr) (aggregators : List Aggregator) (columns : List Vector)
    (rows : ℕ) : Except ExprError AggregateOutput := do
  let keyVectors ← groupKeys.mapM fun e => evalExpr e columns rows
  let argVectors ← aggregators.mapM (argVector columns rows)
  -- without grouping keys there is a group even if there are no rows
  let seed : OrdMap GroupKey GroupState :=
    if groupKeys = [] then (∅ : OrdMap GroupKey GroupState).insert [] (.new 0 aggregators) else ∅
  let groups := OrdMap.groupFold (fun r => encodeTuple (keysAt keyVectors r))
    (fun r => GroupState.new r aggregators) (GroupState.accumulate argVectors) seed
    (List.range rows)
  let ordered := groups.toList.map Prod.snd
  .ok {
    groups := keyVectors.map (·.gather (ordered.map fun g => some g.representative))
    aggregates := (aggregators.zip argVectors).zipIdx.map fun e =>
      buildAggregateColumn e.1.1.func (ordered.map fun g => g.accs[e.2]?.getD (.new e.1.1.func))
        e.1.2
    numGroups := ordered.length }

/-! ### What a grouping is -/

/-- The value of an expression for row `r`. -/
def valueAt (columns : List Vector) (e : Expr) (r : ℕ) : Option ScalarValue :=
  evalRow e (columns.map (·.get r))

/-- The values of an expression for rows, without the `NULL`s. -/
def valuesAt (columns : List Vector) (e : Expr) (rs : List ℕ) : List ScalarValue :=
  rs.filterMap (valueAt columns e)

/-- The value is in the list, and none comes before it (`o = .lt`) or after it (`o = .gt`). -/
def IsExtreme (o : Ordering) (values : List ScalarValue) (v : ScalarValue) : Prop :=
  v ∈ values ∧ ∀ x ∈ values, x.order v ≠ some o

/-- What an aggregate is over the rows of a group.

* `COUNT` is the number of rows, or of rows whose argument is not `NULL`;
* `SUM` is the exact sum, and `NULL` if there is no value or it does not fit 64 bits;
* `AVG` is the quotient of the sum and the number of values as doubles;
* `MIN` and `MAX` are the least and the greatest value, and `NULL` if there is none. -/
def AggValue (columns : List Vector) (agg : Aggregator) (rs : List ℕ) (v : Option ScalarValue) :
    Prop :=
  match agg.func, agg.arg with
  | .count, none => v = some (.int8 rs.length)
  | .count, some e => v = some (.int8 (valuesAt columns e rs).length)
  | .sum, some e => v = if valuesAt columns e rs = [] then none
      else (narrow 64 ((valuesAt columns e rs).map scalarI128).sum).map .int8
  | .avg, some e => v = if valuesAt columns e rs = [] then none
      else some (.float8 (f64Quotient (f64OfInt ((valuesAt columns e rs).map scalarI128).sum)
        (f64OfInt (valuesAt columns e rs).length)))
  | .min, some e => (valuesAt columns e rs = [] ∧ v = none) ∨
      ∃ x, v = some x ∧ IsExtreme .lt (valuesAt columns e rs) x
  | .max, some e => (valuesAt columns e rs = [] ∧ v = none) ∨
      ∃ x, v = some x ∧ IsExtreme .gt (valuesAt columns e rs) x
  | _, none => False

/-- The type of an aggregate. -/
def aggType (agg : Aggregator) (types : List LogicalType) : Except ExprError LogicalType :=
  match agg.func, agg.arg with
  | .count, _ | .sum, _ => .ok .int8
  | .avg, _ => .ok .float8
  | .min, some e | .max, some e => exprType e types
  | .min, none | .max, none => .ok .bool

/-- The tuple of the key values of row `r`. -/
def keyTuple (columns : List Vector) (groupKeys : List Expr) (r : ℕ) : List (Option ScalarValue) :=
  groupKeys.map fun e => valueAt columns e r

/-- The output groups the rows: one group for each tuple of key values, in the order of the encoded
tuples, with the tuple and the aggregates of the rows that have it. -/
structure IsGrouping (groupKeys : List Expr) (aggregators : List Aggregator) (columns : List Vector)
    (rows : ℕ) (out : AggregateOutput) (tuples : List (List (Option ScalarValue))) : Prop where
  /-- Without grouping keys there is one group, of all rows. -/
  mem_iff : ∀ k, k ∈ tuples ↔
    (∃ r < rows, keyTuple columns groupKeys r = k) ∨ (groupKeys = [] ∧ k = [])
  sorted : tuples.Pairwise fun a b => encodeTuple a < encodeTuple b
  numGroups : out.numGroups = tuples.length
  len : ∀ v ∈ out.groups ++ out.aggregates, v.len = tuples.length
  types : List.Forall₂ (fun e v => exprType e (columns.map Vector.logicalType) = .ok v.logicalType)
    groupKeys out.groups
  keys : ∀ g k, tuples[g]? = some k → out.groups.map (·.get g) = k
  aggregates : List.Forall₂ (fun agg v =>
    aggType agg (columns.map Vector.logicalType) = .ok v.logicalType ∧
      ∀ g k, tuples[g]? = some k → AggValue columns agg
        ((List.range rows).filter fun r => keyTuple columns groupKeys r = k) (v.get g))
    aggregators out.aggregates

/-! ### Admitted input -/

/-- The aggregate is one that the binder lets through: `SUM` and `AVG` are over integers, and `MIN`
and `MAX` over a type that a column can have. -/
def Aggregator.Admitted (agg : Aggregator) (types : List LogicalType) : Prop :=
  match agg.func, agg.arg with
  | .count, none => True
  | .count, some e => ∃ ty, exprType e types = .ok ty
  | .sum, some e | .avg, some e => ∃ ty, exprType e types = .ok ty ∧ (ty = .int4 ∨ ty = .int8)
  | .min, some e | .max, some e => ∃ ty, exprType e types = .ok ty ∧ ty ≠ .float8
  | _, none => False

/-- The expressions of a query. -/
def queryExprs (groupKeys : List Expr) (aggregators : List Aggregator) : List Expr :=
  groupKeys ++ aggregators.filterMap Aggregator.arg

/-- The columns are as long as the batch, the expressions have types, and the values fit theirs. -/
structure Aggregable (groupKeys : List Expr) (aggregators : List Aggregator) (columns : List Vector)
    (rows : ℕ) : Prop where
  len : ∀ e ∈ queryExprs groupKeys aggregators, ∀ i ∈ e.collectColumns, ∀ v,
    columns[i]? = some v → v.len = rows
  keys : ∀ e ∈ groupKeys, ∃ ty, exprType e (columns.map Vector.logicalType) = .ok ty
  admitted : ∀ agg ∈ aggregators, agg.Admitted (columns.map Vector.logicalType)
  literals : ∀ e ∈ queryExprs groupKeys aggregators, e.Fits
  cells : ∀ v ∈ columns, v.Fits

/-- The vector of an expression that the evaluator accepts. -/
def vectorOf (columns : List Vector) (rows : ℕ) (e : Expr) : Vector :=
  (evalExpr e columns rows).toOption.getD ⟨.bool, []⟩

section

variable {columns : List Vector} {rows : ℕ} {e : Expr} {ty : LogicalType}

/-- The expression has the type, and its vector holds its values. -/
structure Reads (columns : List Vector) (rows : ℕ) (e : Expr) (ty : LogicalType) : Prop where
  eval : evalExpr e columns rows = .ok (vectorOf columns rows e)
  type : exprType e (columns.map Vector.logicalType) = .ok ty
  logicalType : (vectorOf columns rows e).logicalType = ty
  len : (vectorOf columns rows e).len = rows
  get : ∀ r < rows, (vectorOf columns rows e).get r = valueAt columns e r

theorem reads_of_type
    (hlen : ∀ i ∈ e.collectColumns, ∀ v, columns[i]? = some v → v.len = rows)
    (hty : exprType e (columns.map Vector.logicalType) = .ok ty) : Reads columns rows e ty := by
  rcases evalExpr_yields e hlen with ⟨err, -, ht⟩ | ⟨v, hv, ht, hh⟩
  · rw [hty] at ht
    cases ht
  · have heq : vectorOf columns rows e = v := by
      rw [vectorOf, hv]
      rfl
    rw [hty] at ht
    cases ht
    exact ⟨by rw [heq, hv], hty, by rw [heq], by rw [heq]; exact hh.len,
      by rw [heq]; exact hh.get⟩

namespace Reads

theorem type_value (h : Reads columns rows e ty) {r : ℕ} (hr : r < rows) {x : ScalarValue}
    (hx : valueAt columns e r = some x) : x.logicalType = ty := by
  rw [← h.get r hr] at hx
  rw [← h.logicalType]
  exact Vector.logicalType_get hx

theorem type_values (h : Reads columns rows e ty) {rs : List ℕ} (hrs : ∀ r ∈ rs, r < rows)
    {x : ScalarValue} (hx : x ∈ valuesAt columns e rs) : x.logicalType = ty := by
  obtain ⟨r, hr, hx⟩ := List.mem_filterMap.1 hx
  exact h.type_value (hrs r hr) hx

end Reads

theorem fits_valueAt (he : e.Fits) (hc : ∀ v ∈ columns, v.Fits) {r : ℕ} {x : ScalarValue}
    (hx : valueAt columns e r = some x) : x.Fits := by
  refine fits_evalRow he (fun c hcell y hy => ?_) hx
  obtain ⟨w, hw, rfl⟩ := List.mem_map.1 hcell
  exact hc w hw r y hy

/-! ### Extremes -/

theorem scalarCmp_eq_order {a b : ScalarValue} (hty : a.logicalType = b.logicalType)
    (hf : a.logicalType ≠ .float8) : scalarCmp a b = a.order b := by
  cases a <;> cases b <;> first
    | (cases hty; done)
    | rfl
    | exact absurd rfl hf

theorem order_trans {a b c : ScalarValue} {o : Ordering} (hab : a.logicalType = b.logicalType)
    (hbc : b.logicalType = c.logicalType) (h : a.order b = some o) (h' : b.order c = some o) :
    a.order c = some o := by
  rw [ScalarValue.order_eq_cmp hab, Option.some.injEq] at h
  rw [ScalarValue.order_eq_cmp hbc, Option.some.injEq] at h'
  rw [ScalarValue.order_eq_cmp (hab.trans hbc), Option.some.injEq]
  cases o with
  | lt => exact cmp_list_eq_lt.2 (lt_trans (cmp_list_eq_lt.1 h) (cmp_list_eq_lt.1 h'))
  | gt => exact cmp_list_eq_gt.2 (lt_trans (cmp_list_eq_gt.1 h') (cmp_list_eq_gt.1 h))
  | eq =>
    have hx : a.sortKey = b.sortKey := by
      rcases lt_trichotomy a.sortKey b.sortKey with hlt | heq | hgt
      · rw [cmp_list_eq_lt.2 hlt] at h
        cases h
      · exact heq
      · rw [cmp_list_eq_gt.2 hgt] at h
        cases h
    rw [hx]
    exact h'

theorem order_self (a : ScalarValue) : a.order a = some .eq :=
  (ScalarValue.order_eq_eq rfl).2 rfl

/-- One more value: it is the extreme if it is past the one before, else that stays. -/
theorem IsExtreme.step {o : Ordering} (ho : o ≠ .eq) {values : List ScalarValue} {x c : ScalarValue}
    (h : IsExtreme o values x) (hv : ∀ y ∈ values, y.logicalType = ty) (hc : c.logicalType = ty) :
    IsExtreme o (values ++ [c]) (if c.order x = some o then c else x) := by
  have hx := hv x h.1
  split_ifs with hcx
  · refine ⟨List.mem_append_right _ (List.mem_singleton.2 rfl), fun y hy => ?_⟩
    rcases List.mem_append.1 hy with hy | hy
    · intro hyc
      exact h.2 y hy (order_trans ((hv y hy).trans hc.symm) (hc.trans hx.symm) hyc hcx)
    · rw [List.mem_singleton.1 hy, order_self]
      intro hself
      exact ho (Option.some.inj hself).symm
  · refine ⟨List.mem_append_left _ h.1, fun y hy => ?_⟩
    rcases List.mem_append.1 hy with hy | hy
    · exact h.2 y hy
    · rw [List.mem_singleton.1 hy]
      exact hcx

/-- Values have one extreme. -/
theorem IsExtreme.unique {o : Ordering} (ho : o = .lt ∨ o = .gt) {values values' : List ScalarValue}
    {x x' : ScalarValue} (h : IsExtreme o values x) (h' : IsExtreme o values' x')
    (hp : values.Perm values') (hv : ∀ y ∈ values, y.logicalType = ty) : x = x' := by
  have hx := hv x h.1
  have hmem : x' ∈ values := hp.mem_iff.2 h'.1
  have hty : x.logicalType = x'.logicalType := hx.trans (hv x' hmem).symm
  have h₁ := h'.2 x (hp.mem_iff.1 h.1)
  have h₂ := h.2 x' hmem
  rw [ScalarValue.order_eq_cmp hty, ne_eq, Option.some.injEq] at h₁
  rw [ScalarValue.order_eq_cmp hty.symm, ne_eq, Option.some.injEq] at h₂
  rw [← ScalarValue.order_eq_eq hty, ScalarValue.order_eq_cmp hty, Option.some.injEq]
  rcases ho with rfl | rfl
  · rw [cmp_list_eq_lt] at h₁ h₂
    cases hcmp : cmp x.sortKey x'.sortKey with
    | eq => rfl
    | lt => exact absurd (cmp_list_eq_lt.1 hcmp) h₁
    | gt => exact absurd (cmp_list_eq_gt.1 hcmp) h₂
  · rw [cmp_list_eq_gt] at h₁ h₂
    cases hcmp : cmp x.sortKey x'.sortKey with
    | eq => rfl
    | lt => exact absurd (cmp_list_eq_lt.1 hcmp) h₂
    | gt => exact absurd (cmp_list_eq_gt.1 hcmp) h₁

/-! ### Accumulators -/

/-- The row is the one with the extreme value of those seen, if there is a value. -/
def ExtremeRow (columns : List Vector) (o : Ordering) (e : Expr) (rs : List ℕ) (row : Option ℕ) :
    Prop :=
  (valuesAt columns e rs = [] ∧ row = none) ∨
    ∃ r x, row = some r ∧ r ∈ rs ∧ valueAt columns e r = some x ∧
      IsExtreme o (valuesAt columns e rs) x

/-- What the accumulator of an aggregate holds after some rows. -/
def AccOf (columns : List Vector) (agg : Aggregator) (rs : List ℕ) (a : Acc) : Prop :=
  match agg.func, agg.arg with
  | .count, none => a = .count rs.length
  | .count, some e => a = .count (valuesAt columns e rs).length
  | .sum, some e => a = .sum ((valuesAt columns e rs).map scalarI128).sum
      (decide (valuesAt columns e rs ≠ []))
  | .avg, some e => a = .avg ((valuesAt columns e rs).map scalarI128).sum
      (valuesAt columns e rs).length
  | .min, some e => ∃ row, a = .min row ∧ ExtremeRow columns .lt e rs row
  | .max, some e => ∃ row, a = .max row ∧ ExtremeRow columns .gt e rs row
  | _, none => False

theorem valuesAt_append (rs : List ℕ) (r : ℕ) :
    valuesAt columns e (rs ++ [r]) = valuesAt columns e rs ++ (valueAt columns e r).toList := by
  rw [valuesAt, List.filterMap_append, valuesAt]
  cases h : valueAt columns e r <;> simp [h]

/-- One more row for a `MIN` or a `MAX`. -/
theorem ExtremeRow.step {o : Ordering} (ho : o ≠ .eq) (hr : Reads columns rows e ty)
    (hf : ty ≠ .float8) {rs : List ℕ} (hrs : ∀ r ∈ rs, r < rows) {row : Option ℕ}
    (h : ExtremeRow columns o e rs row) {r : ℕ} (hlt : r < rows) :
    ExtremeRow columns o e (rs ++ [r])
      (updateExtreme row (some (vectorOf columns rows e)) r o) := by
  have hget := hr.get r hlt
  rw [ExtremeRow, valuesAt_append]
  simp only [updateExtreme, Option.bind_some, hget]
  cases hc : valueAt columns e r with
  | none =>
    simp only [Option.toList_none, List.append_nil]
    rcases h with ⟨hnil, rfl⟩ | ⟨b, x, rfl, hb, hx, hext⟩
    · exact .inl ⟨hnil, rfl⟩
    · exact .inr ⟨b, x, rfl, List.mem_append_left _ hb, hx, hext⟩
  | some c =>
    have hcty := hr.type_value hlt hc
    simp only [Option.toList_some]
    rcases h with ⟨hnil, rfl⟩ | ⟨b, x, rfl, hb, hx, hext⟩
    · rw [hnil, List.nil_append]
      refine .inr ⟨r, c, rfl, List.mem_append_right _ (List.mem_singleton.2 rfl), hc,
        List.mem_singleton.2 rfl, fun y hy => ?_⟩
      rw [List.mem_singleton.1 hy, order_self]
      intro hself
      exact ho (Option.some.inj hself).symm
    · have hstep := hext.step ho (fun y hy => hr.type_values hrs hy) hcty
      have hxty := hr.type_value (hrs b hb) hx
      simp only [hr.get b (hrs b hb), hx, scalarCmp_eq_order (hcty.trans hxty.symm)
        (hcty.symm ▸ hf)]
      by_cases hcx : c.order x = some o
      · rw [if_pos hcx] at hstep ⊢
        exact .inr ⟨r, c, rfl, List.mem_append_right _ (List.mem_singleton.2 rfl), hc, hstep⟩
      · rw [if_neg hcx] at hstep ⊢
        exact .inr ⟨b, x, rfl, List.mem_append_left _ hb, hx, hstep⟩

/-- **One more row** for any aggregate. -/
theorem AccOf.step {agg : Aggregator} (hadm : agg.Admitted (columns.map Vector.logicalType))
    (hlen : ∀ e, agg.arg = some e → ∀ i ∈ e.collectColumns, ∀ v,
      columns[i]? = some v → v.len = rows) {rs : List ℕ} (hrs : ∀ r ∈ rs, r < rows) {a : Acc}
    (h : AccOf columns agg rs a) {r : ℕ} (hlt : r < rows) :
    AccOf columns agg (rs ++ [r]) (a.accumulate (agg.arg.map (vectorOf columns rows)) r) := by
  obtain ⟨func, arg⟩ := agg
  cases arg with
  | none =>
    cases func with
    | count =>
      simp only [AccOf] at h ⊢
      subst h
      simp [Acc.accumulate]
    | sum | avg | min | max => exact h.elim
  | some e =>
    -- an argument has a type, so its vector holds its values
    obtain ⟨ty, hty⟩ : ∃ ty, exprType e (columns.map Vector.logicalType) = .ok ty := by
      cases func with
      | count => exact hadm
      | sum | avg | min | max =>
        obtain ⟨ty, hty, -⟩ := hadm
        exact ⟨ty, hty⟩
    have hr := reads_of_type (hlen e rfl) hty
    have hget := hr.get r hlt
    cases func with
    | count =>
      simp only [AccOf] at h ⊢
      subst h
      rw [valuesAt_append]
      cases hv : valueAt columns e r <;> simp [Acc.accumulate, hget, hv]
    | sum =>
      simp only [AccOf] at h ⊢
      subst h
      rw [valuesAt_append]
      cases hv : valueAt columns e r <;> simp [Acc.accumulate, hget, hv]
    | avg =>
      simp only [AccOf] at h ⊢
      subst h
      rw [valuesAt_append]
      cases hv : valueAt columns e r <;> simp [Acc.accumulate, hget, hv]
    | min =>
      obtain ⟨ty', hty', hf⟩ := hadm
      obtain ⟨row, rfl, hrow⟩ := h
      exact ⟨_, rfl, hrow.step (by decide) (reads_of_type (hlen e rfl) hty') hf hrs hlt⟩
    | max =>
      obtain ⟨ty', hty', hf⟩ := hadm
      obtain ⟨row, rfl, hrow⟩ := h
      exact ⟨_, rfl, hrow.step (by decide) (reads_of_type (hlen e rfl) hty') hf hrs hlt⟩

/-- **The accumulator of an aggregate** after the rows of a group. -/
theorem accOf_foldl {agg : Aggregator} (hadm : agg.Admitted (columns.map Vector.logicalType))
    (hlen : ∀ e, agg.arg = some e → ∀ i ∈ e.collectColumns, ∀ v,
      columns[i]? = some v → v.len = rows) {rs : List ℕ} (hrs : ∀ r ∈ rs, r < rows) :
    AccOf columns agg rs
      (rs.foldl (Acc.accumulate (agg.arg.map (vectorOf columns rows))) (.new agg.func)) := by
  induction rs using List.reverseRecOn with
  | nil =>
    obtain ⟨func, arg⟩ := agg
    cases arg with
    | none =>
      cases func with
      | count => rfl
      | sum | avg | min | max => exact hadm.elim
    | some e =>
      cases func with
      | count | sum | avg => rfl
      | min | max => exact ⟨none, rfl, .inl ⟨rfl, rfl⟩⟩
  | append_singleton rs r ih =>
    have hrs' : ∀ r ∈ rs, r < rows := fun r hr => hrs r (List.mem_append_left _ hr)
    rw [List.foldl_append, List.foldl_cons, List.foldl_nil]
    exact (ih hrs').step hadm hlen hrs'
      (hrs r (List.mem_append_right _ (List.mem_singleton.2 rfl)))

end

/-! ### The groups of a batch -/

section

variable {groupKeys : List Expr} {aggregators : List Aggregator} {columns : List Vector} {rows : ℕ}

theorem Aggregable.len_key (h : Aggregable groupKeys aggregators columns rows) {e : Expr}
    (he : e ∈ groupKeys) : ∀ i ∈ e.collectColumns, ∀ v, columns[i]? = some v → v.len = rows :=
  h.len e (List.mem_append_left _ he)

theorem mem_queryExprs_of_arg {agg : Aggregator} (hagg : agg ∈ aggregators) {e : Expr}
    (he : agg.arg = some e) : e ∈ queryExprs groupKeys aggregators :=
  List.mem_append_right _ (List.mem_filterMap.2 ⟨agg, hagg, he⟩)

theorem Aggregable.len_arg (h : Aggregable groupKeys aggregators columns rows) {agg : Aggregator}
    (hagg : agg ∈ aggregators) {e : Expr} (he : agg.arg = some e) :
    ∀ i ∈ e.collectColumns, ∀ v, columns[i]? = some v → v.len = rows :=
  h.len e (mem_queryExprs_of_arg hagg he)

theorem Aggregable.reads_key (h : Aggregable groupKeys aggregators columns rows) {e : Expr}
    (he : e ∈ groupKeys) : ∃ ty, Reads columns rows e ty := by
  obtain ⟨ty, hty⟩ := h.keys e he
  exact ⟨ty, reads_of_type (h.len_key he) hty⟩

theorem Aggregator.Admitted.hasType {agg : Aggregator} {types : List LogicalType} {e : Expr}
    (h : agg.Admitted types) (he : agg.arg = some e) : ∃ ty, exprType e types = .ok ty := by
  obtain ⟨func, arg⟩ := agg
  subst he
  cases func with
  | count => exact h
  | sum | avg | min | max =>
    obtain ⟨ty, hty, -⟩ := h
    exact ⟨ty, hty⟩

theorem Aggregable.keyVectors (h : Aggregable groupKeys aggregators columns rows) :
    (groupKeys.mapM fun e => evalExpr e columns rows) =
      .ok (groupKeys.map (vectorOf columns rows)) := by
  refine mapM_of_forall fun e he => ?_
  obtain ⟨ty, hr⟩ := h.reads_key he
  exact hr.eval

theorem Aggregable.argVectors (h : Aggregable groupKeys aggregators columns rows) :
    aggregators.mapM (argVector columns rows) =
      .ok (aggregators.map fun agg => agg.arg.map (vectorOf columns rows)) := by
  refine mapM_of_forall fun agg hagg => ?_
  rw [argVector]
  cases harg : agg.arg with
  | none => rfl
  | some e =>
    obtain ⟨ty, hty⟩ := (h.admitted agg hagg).hasType harg
    dsimp only
    rw [(reads_of_type (h.len_arg hagg harg) hty).eval]
    rfl

theorem Aggregable.keysAt_eq (h : Aggregable groupKeys aggregators columns rows) {r : ℕ}
    (hr : r < rows) :
    keysAt (groupKeys.map (vectorOf columns rows)) r = keyTuple columns groupKeys r := by
  rw [keysAt, List.map_map, keyTuple]
  refine List.map_congr_left fun e he => ?_
  obtain ⟨ty, hread⟩ := h.reads_key he
  exact hread.get r hr

/-- Rows have one encoded key tuple exactly if they have one key tuple. -/
theorem Aggregable.encodeTuple_inj (h : Aggregable groupKeys aggregators columns rows) {r r' : ℕ}
    (hr : r < rows) (hr' : r' < rows) :
    encodeTuple (keyTuple columns groupKeys r) = encodeTuple (keyTuple columns groupKeys r') ↔
      keyTuple columns groupKeys r = keyTuple columns groupKeys r' := by
  refine ⟨fun heq => ?_, congrArg encodeTuple⟩
  rw [encodeTuple, encodeTuple, keyTuple, keyTuple, List.map_map, List.map_map,
    List.map_inj_left] at heq
  refine List.map_inj_left.2 fun e he => ?_
  obtain ⟨ty, hread⟩ := h.reads_key he
  have hfits := h.literals e (List.mem_append_left _ he)
  refine encodeCell_inj (fun a ha => fits_valueAt hfits h.cells ha)
    (fun b hb => fits_valueAt hfits h.cells hb) (fun a b ha hb => ?_) (heq e he)
  rw [hread.type_value hr ha, hread.type_value hr' hb]

/-- The accumulators of a group after its rows. -/
def groupOf (columns : List Vector) (rows : ℕ) (aggregators : List Aggregator)
    (representative : ℕ) (rs : List ℕ) : GroupState :=
  ⟨representative, aggregators.map fun agg =>
    rs.foldl (Acc.accumulate (agg.arg.map (vectorOf columns rows))) (.new agg.func)⟩

theorem foldl_groupState (arg : Aggregator → Option Vector) (start : Aggregator → Acc)
    (representative : ℕ) (rs : List ℕ) :
    rs.foldl (GroupState.accumulate (aggregators.map arg))
        ⟨representative, aggregators.map start⟩ =
      ⟨representative, aggregators.map fun agg =>
        rs.foldl (Acc.accumulate (arg agg)) (start agg)⟩ := by
  induction rs generalizing start with
  | nil => rfl
  | cons r rs ih =>
    have hstep : GroupState.accumulate (aggregators.map arg)
        ⟨representative, aggregators.map start⟩ r =
        ⟨representative, aggregators.map fun agg => (start agg).accumulate (arg agg) r⟩ := by
      rw [GroupState.accumulate, List.zipWith_map, List.zipWith_self]
    rw [List.foldl_cons, hstep, ih]
    rfl

/-- The rows that have a key tuple. -/
def groupRows (columns : List Vector) (groupKeys : List Expr) (rows : ℕ)
    (k : List (Option ScalarValue)) : List ℕ :=
  (List.range rows).filter fun r => keyTuple columns groupKeys r = k

/-- The groups of a batch, by their encoded key tuples. -/
def groupsOf (groupKeys : List Expr) (aggregators : List Aggregator) (columns : List Vector)
    (rows : ℕ) : OrdMap GroupKey GroupState :=
  OrdMap.groupFold
    (fun r => encodeTuple (keysAt (groupKeys.map (vectorOf columns rows)) r))
    (fun r => GroupState.new r aggregators)
    (GroupState.accumulate (aggregators.map fun agg => agg.arg.map (vectorOf columns rows)))
    (if groupKeys = [] then (∅ : OrdMap GroupKey GroupState).insert [] (.new 0 aggregators) else ∅)
    (List.range rows)

/-- The test for the rows of a key tuple, as the map puts it. -/
theorem Aggregable.mem_groupRows (h : Aggregable groupKeys aggregators columns rows) {r : ℕ}
    (hr : r < rows) : ∀ s ∈ List.range rows,
      decide (keyTuple columns groupKeys s = keyTuple columns groupKeys r) = true ↔
        encodeTuple (keysAt (groupKeys.map (vectorOf columns rows)) s) =
          encodeTuple (keyTuple columns groupKeys r) := by
  intro s hs
  have hs := List.mem_range.1 hs
  rw [decide_eq_true_iff, h.keysAt_eq hs]
  exact (h.encodeTuple_inj hs hr).symm

/-- A group of the map: its key is the encoding of its representative's tuple, and its accumulators
have seen the rows that have that tuple. -/
theorem Aggregable.group_of_mem (h : Aggregable groupKeys aggregators columns rows) {k : GroupKey}
    {g : GroupState} (hk : (groupsOf groupKeys aggregators columns rows)[k]? = some g) :
    encodeTuple (keyTuple columns groupKeys g.representative) = k ∧
      (groupKeys = [] ∨ g.representative < rows) ∧
      g = groupOf columns rows aggregators g.representative
        (groupRows columns groupKeys rows (keyTuple columns groupKeys g.representative)) := by
  have hfold : ∀ r rs, rs.foldl (GroupState.accumulate (aggregators.map fun agg =>
      agg.arg.map (vectorOf columns rows))) (GroupState.new r aggregators) =
      groupOf columns rows aggregators r rs := fun r rs => foldl_groupState _ _ r rs
  rw [groupsOf] at hk
  by_cases hnil : groupKeys = []
  · subst hnil
    have hkey : k = [] := by
      by_contra hne
      rw [if_pos rfl, OrdMap.getElem?_groupFold_of_none (p := fun _ => false)] at hk
      · simp at hk
      · simp [keysAt, encodeTuple, Ne.symm hne]
      · simp [OrdMap.getElem?_insert, Ne.symm hne]
    subst hkey
    rw [if_pos rfl, OrdMap.getElem?_groupFold_of_some (p := fun r => keyTuple columns [] r = [])
      (by simp [keyTuple, keysAt, encodeTuple])
      ((OrdMap.getElem?_insert _ _ _ _).trans (if_pos rfl)), hfold] at hk
    cases hk
    exact ⟨rfl, .inl rfl, rfl⟩
  · rw [if_neg hnil, OrdMap.getElem?_groupFold_of_none
      (p := fun r => encodeTuple (keysAt (groupKeys.map (vectorOf columns rows)) r) = k)
      (by simp) (by simp)] at hk
    obtain ⟨r, hr, -⟩ := Option.map_eq_some_iff.1 hk
    obtain ⟨hrange, hkey⟩ := List.mem_filter.1 (List.mem_of_head? hr)
    have hlt := List.mem_range.1 hrange
    rw [h.keysAt_eq hlt, decide_eq_true_eq] at hkey
    subst hkey
    have hrows : ((List.range rows).filter fun s => encodeTuple (keysAt (groupKeys.map
        (vectorOf columns rows)) s) = encodeTuple (keyTuple columns groupKeys r)) =
        groupRows columns groupKeys rows (keyTuple columns groupKeys r) :=
      List.filter_congr fun s hs => by
        rw [Bool.eq_iff_iff, h.mem_groupRows hlt s hs, decide_eq_true_iff]
    rw [hrows] at hr hk
    rw [hr, Option.map_some, hfold] at hk
    cases hk
    exact ⟨rfl, .inr hlt, rfl⟩

/-- The key tuples of a batch all have a group. -/
theorem Aggregable.mem_groupsOf (h : Aggregable groupKeys aggregators columns rows) {r : ℕ}
    (hr : groupKeys = [] ∨ r < rows) :
    ∃ g, (groupsOf groupKeys aggregators columns rows)[
      encodeTuple (keyTuple columns groupKeys r)]? = some g := by
  by_cases hnil : groupKeys = []
  · subst hnil
    rw [groupsOf, if_pos rfl]
    exact ⟨_, OrdMap.getElem?_groupFold_of_some (p := fun _ => true)
      (by simp [keyTuple, keysAt, encodeTuple])
      ((OrdMap.getElem?_insert _ _ _ _).trans (if_pos rfl))⟩
  · have hlt := hr.resolve_left hnil
    rw [groupsOf, if_neg hnil, OrdMap.getElem?_groupFold_of_none (h.mem_groupRows hlt) (by simp)]
    have hmem : r ∈ (List.range rows).filter fun s =>
        keyTuple columns groupKeys s = keyTuple columns groupKeys r :=
      List.mem_filter.2 ⟨List.mem_range.2 hlt, decide_eq_true rfl⟩
    obtain ⟨s, ss, hs⟩ := List.exists_cons_of_ne_nil (List.ne_nil_of_mem hmem)
    exact ⟨_, by rw [hs]; rfl⟩

/-- The groups in the order of their keys. -/
def orderedGroups (groupKeys : List Expr) (aggregators : List Aggregator) (columns : List Vector)
    (rows : ℕ) : List GroupState :=
  (groupsOf groupKeys aggregators columns rows).toList.map Prod.snd

/-- The key tuples in the order of their encodings. -/
def groupTuples (groupKeys : List Expr) (aggregators : List Aggregator) (columns : List Vector)
    (rows : ℕ) : List (List (Option ScalarValue)) :=
  (orderedGroups groupKeys aggregators columns rows).map fun g =>
    keyTuple columns groupKeys g.representative

theorem mem_orderedGroups {g : GroupState} :
    g ∈ orderedGroups groupKeys aggregators columns rows ↔
      ∃ k : GroupKey, (groupsOf groupKeys aggregators columns rows)[k]? = some g := by
  rw [orderedGroups, List.mem_map]
  constructor
  · rintro ⟨⟨k, g⟩, hmem, rfl⟩
    exact ⟨k, OrdMap.mem_toList.1 hmem⟩
  · rintro ⟨k, hk⟩
    exact ⟨(k, g), OrdMap.mem_toList.2 hk, rfl⟩

theorem Aggregable.mem_groupTuples (h : Aggregable groupKeys aggregators columns rows)
    {k : List (Option ScalarValue)} :
    k ∈ groupTuples groupKeys aggregators columns rows ↔
      (∃ r < rows, keyTuple columns groupKeys r = k) ∨ (groupKeys = [] ∧ k = []) := by
  rw [groupTuples, List.mem_map]
  constructor
  · rintro ⟨g, hg, rfl⟩
    obtain ⟨k, hk⟩ := mem_orderedGroups.1 hg
    obtain ⟨-, hrep, -⟩ := h.group_of_mem hk
    rcases hrep with rfl | hlt
    · exact .inr ⟨rfl, rfl⟩
    · exact .inl ⟨g.representative, hlt, rfl⟩
  · intro hk
    obtain ⟨r, hr, rfl⟩ : ∃ r, (groupKeys = [] ∨ r < rows) ∧ keyTuple columns groupKeys r = k := by
      rcases hk with ⟨r, hr, rfl⟩ | ⟨rfl, rfl⟩
      · exact ⟨r, .inr hr, rfl⟩
      · exact ⟨0, .inl rfl, rfl⟩
    obtain ⟨g, hg⟩ := h.mem_groupsOf hr
    refine ⟨g, mem_orderedGroups.2 ⟨_, hg⟩, ?_⟩
    obtain ⟨henc, hrep, -⟩ := h.group_of_mem hg
    rcases hrep with rfl | hlt
    · rfl
    · rcases hr with rfl | hr
      · rfl
      · exact (h.encodeTuple_inj hlt hr).1 henc

theorem Aggregable.sorted_groupTuples (h : Aggregable groupKeys aggregators columns rows) :
    (groupTuples groupKeys aggregators columns rows).Pairwise fun a b =>
      encodeTuple a < encodeTuple b := by
  rw [groupTuples, orderedGroups, List.map_map, List.pairwise_map]
  refine (OrdMap.toList_pairwise _).imp_of_mem fun {a b} ha hb hlt => ?_
  obtain ⟨ha, -⟩ := h.group_of_mem (OrdMap.mem_toList.1 ha)
  obtain ⟨hb, -⟩ := h.group_of_mem (OrdMap.mem_toList.1 hb)
  simp only [Function.comp]
  rwa [ha, hb]

end

section

variable {groupKeys : List Expr} {aggregators : List Aggregator} {columns : List Vector} {rows : ℕ}

/-- The accumulator of an aggregate after the rows that have a key tuple. -/
def accAt (columns : List Vector) (rows : ℕ) (groupKeys : List Expr) (agg : Aggregator)
    (k : List (Option ScalarValue)) : Acc :=
  (groupRows columns groupKeys rows k).foldl
    (Acc.accumulate (agg.arg.map (vectorOf columns rows))) (.new agg.func)

theorem zipIdx_zip_map {α β γ : Type*} (l : List α) (f : α → β) (g : (α × β) × ℕ → γ)
    (f' : α → γ) (h : ∀ (i : ℕ) (a : α), l[i]? = some a → g ((a, f a), i) = f' a) :
    (l.zip (l.map f)).zipIdx.map g = l.map f' := by
  refine List.ext_getElem (by simp) fun i hi hi' => ?_
  simp only [List.getElem_map, List.getElem_zipIdx, List.getElem_zip, Nat.zero_add]
  exact h i _ (List.getElem?_eq_getElem _)

theorem Aggregable.hashAggregate_eq (h : Aggregable groupKeys aggregators columns rows) :
    hashAggregate groupKeys aggregators columns rows = .ok {
      groups := groupKeys.map fun e => (vectorOf columns rows e).gather
        ((orderedGroups groupKeys aggregators columns rows).map fun g => some g.representative)
      aggregates := aggregators.map fun agg => buildAggregateColumn agg.func
        ((groupTuples groupKeys aggregators columns rows).map
          (accAt columns rows groupKeys agg)) (agg.arg.map (vectorOf columns rows))
      numGroups := (groupTuples groupKeys aggregators columns rows).length } := by
  have haggs : ((aggregators.zip (aggregators.map fun agg =>
      agg.arg.map (vectorOf columns rows))).zipIdx.map fun e =>
      buildAggregateColumn e.1.1.func ((orderedGroups groupKeys aggregators columns rows).map
        fun g => g.accs[e.2]?.getD (.new e.1.1.func)) e.1.2) =
      aggregators.map fun agg => buildAggregateColumn agg.func
        ((groupTuples groupKeys aggregators columns rows).map
          (accAt columns rows groupKeys agg)) (agg.arg.map (vectorOf columns rows)) := by
    refine zipIdx_zip_map _ _ _ _ fun i agg hagg => ?_
    rw [groupTuples, List.map_map]
    refine congrArg (fun accs => buildAggregateColumn agg.func accs _)
      (List.map_congr_left fun g hg => ?_)
    obtain ⟨k, hk⟩ := mem_orderedGroups.1 hg
    obtain ⟨-, -, hg⟩ := h.group_of_mem hk
    rw [hg]
    simp [groupOf, hagg, accAt]
  rw [hashAggregate, h.keyVectors, h.argVectors]
  simp only [bind, Except.bind]
  refine congrArg Except.ok ?_
  rw [AggregateOutput.mk.injEq]
  refine ⟨?_, haggs, ?_⟩
  · rw [List.map_map]
    rfl
  · simp only [groupTuples, orderedGroups, List.length_map]
    rfl

/-- The value of the extreme row is the extreme. -/
theorem ExtremeRow.get {o : Ordering} {e : Expr} {ty : LogicalType} {rs : List ℕ} {row : Option ℕ}
    (h : ExtremeRow columns o e rs row) (hr : Reads columns rows e ty) (hrs : ∀ r ∈ rs, r < rows)
    {accs : List Acc} {g : ℕ} {a : Acc} (hg : accs[g]? = some a) (ha : a.extremeRow = row) :
    (valuesAt columns e rs = [] ∧
        ((vectorOf columns rows e).gather (accs.map Acc.extremeRow)).get g = none) ∨
      ∃ x, ((vectorOf columns rows e).gather (accs.map Acc.extremeRow)).get g = some x ∧
        IsExtreme o (valuesAt columns e rs) x := by
  rw [Vector.get_gather, List.getElem?_map, hg, Option.map_some, ha, Option.join_some]
  rcases h with ⟨hnil, rfl⟩ | ⟨r, x, rfl, hmem, hx, hext⟩
  · exact .inl ⟨hnil, rfl⟩
  · exact .inr ⟨x, (hr.get r (hrs r hmem)).trans hx, hext⟩

/-- The cell of an aggregate's column is its value over the rows of the group. -/
theorem aggValue_of_accOf {agg : Aggregator} {rs : List ℕ} (hrs : ∀ r ∈ rs, r < rows)
    (hadm : agg.Admitted (columns.map Vector.logicalType))
    (hlen : ∀ e, agg.arg = some e → ∀ i ∈ e.collectColumns, ∀ v,
      columns[i]? = some v → v.len = rows) {accs : List Acc} {g : ℕ} {a : Acc}
    (hg : accs[g]? = some a) (ha : AccOf columns agg rs a) :
    AggValue columns agg rs ((buildAggregateColumn agg.func accs
      (agg.arg.map (vectorOf columns rows))).get g) := by
  obtain ⟨func, arg⟩ := agg
  cases arg with
  | none =>
    cases func with
    | count =>
      cases (show a = _ from ha)
      refine (Vector.get_mk_map .int8 accs (fun a => some a.countValue) g).trans ?_
      rw [hg]
      rfl
    | sum | avg | min | max => exact ha.elim
  | some e =>
    cases func with
    | count =>
      cases (show a = _ from ha)
      refine (Vector.get_mk_map .int8 accs (fun a => some a.countValue) g).trans ?_
      rw [hg]
      rfl
    | sum =>
      cases (show a = _ from ha)
      refine (Vector.get_mk_map .int8 accs Acc.sumValue g).trans ?_
      rw [hg, Option.bind_some, Acc.sumValue]
      by_cases hnil : valuesAt columns e rs = []
      · simp [hnil]
      · rw [if_pos (decide_eq_true hnil), if_neg hnil]
        rfl
    | avg =>
      cases (show a = _ from ha)
      refine (Vector.get_mk_map .float8 accs Acc.avgValue g).trans ?_
      rw [hg, Option.bind_some, Acc.avgValue]
      by_cases hnil : valuesAt columns e rs = []
      · simp [hnil]
      · have hne : ((valuesAt columns e rs).length : ℤ) ≠ 0 := by
          rw [Int.natCast_ne_zero, ne_eq, List.length_eq_zero_iff]
          exact hnil
        rw [if_pos hne, if_neg hnil]
        rfl
    | min =>
      obtain ⟨ty, hty, -⟩ := hadm
      obtain ⟨row, rfl, hrow⟩ := ha
      exact hrow.get (reads_of_type (hlen e rfl) hty) hrs hg rfl
    | max =>
      obtain ⟨ty, hty, -⟩ := hadm
      obtain ⟨row, rfl, hrow⟩ := ha
      exact hrow.get (reads_of_type (hlen e rfl) hty) hrs hg rfl

theorem groupRows_lt (k : List (Option ScalarValue)) :
    ∀ r ∈ groupRows columns groupKeys rows k, r < rows :=
  fun _ hr => List.mem_range.1 (List.mem_of_mem_filter hr)

theorem aggType_column {agg : Aggregator} (hadm : agg.Admitted (columns.map Vector.logicalType))
    (hlen : ∀ e, agg.arg = some e → ∀ i ∈ e.collectColumns, ∀ v,
      columns[i]? = some v → v.len = rows) (accs : List Acc) :
    aggType agg (columns.map Vector.logicalType) = .ok (buildAggregateColumn agg.func accs
      (agg.arg.map (vectorOf columns rows))).logicalType := by
  obtain ⟨func, arg⟩ := agg
  cases func with
  | count | sum | avg => rfl
  | min | max =>
    cases arg with
    | none => exact hadm.elim
    | some e =>
      obtain ⟨ty, hty, -⟩ := hadm
      have hr := reads_of_type (hlen e rfl) hty
      exact hr.type.trans (congrArg Except.ok hr.logicalType.symm)

theorem len_buildAggregateColumn (func : AggregateFunc) (accs : List Acc) (arg : Option Vector) :
    (buildAggregateColumn func accs arg).len = accs.length := by
  cases func with
  | count | sum | avg => exact List.length_map _
  | min | max => exact (Vector.len_gather _ _).trans (List.length_map _)

/-- **The output of `hashAggregate`** groups its rows. -/
theorem isGrouping_hashAggregate (h : Aggregable groupKeys aggregators columns rows) :
    ∃ out, hashAggregate groupKeys aggregators columns rows = .ok out ∧
      IsGrouping groupKeys aggregators columns rows out
        (groupTuples groupKeys aggregators columns rows) := by
  refine ⟨_, h.hashAggregate_eq, ?_⟩
  constructor
  case mem_iff => exact fun k => h.mem_groupTuples
  case sorted => exact h.sorted_groupTuples
  case numGroups => rfl
  case len =>
    intro v hv
    rcases List.mem_append.1 hv with hv | hv
    · obtain ⟨e, -, rfl⟩ := List.mem_map.1 hv
      simp [Vector.len_gather, groupTuples]
    · obtain ⟨agg, -, rfl⟩ := List.mem_map.1 hv
      simp [len_buildAggregateColumn]
  case types =>
    refine List.forall₂_map_right_iff.2 (List.forall₂_same.2 fun e he => ?_)
    obtain ⟨ty, hread⟩ := h.reads_key he
    exact hread.type.trans (congrArg Except.ok hread.logicalType.symm)
  case keys =>
    intro g k hk
    rw [groupTuples, List.getElem?_map, Option.map_eq_some_iff] at hk
    obtain ⟨s, hs, rfl⟩ := hk
    rw [List.map_map, keyTuple]
    refine List.map_congr_left fun e he => ?_
    obtain ⟨ty, hread⟩ := h.reads_key he
    obtain ⟨k, hk⟩ := mem_orderedGroups.1 (List.mem_of_getElem? hs)
    obtain ⟨-, hrep, -⟩ := h.group_of_mem hk
    have hlt := hrep.resolve_left (List.ne_nil_of_mem he)
    rw [Function.comp, Vector.get_gather, List.getElem?_map, hs]
    exact hread.get _ hlt
  case aggregates =>
    refine List.forall₂_map_right_iff.2 (List.forall₂_same.2 fun agg hagg => ?_)
    have hadm := h.admitted agg hagg
    have hlen := fun e he => h.len_arg hagg (e := e) he
    refine ⟨aggType_column hadm hlen _, fun g k hk => ?_⟩
    refine aggValue_of_accOf (groupRows_lt k) hadm hlen (a := accAt columns rows groupKeys agg k)
      ?_ (accOf_foldl hadm hlen (groupRows_lt k))
    rw [List.getElem?_map, hk]
    rfl

end

/-! ### The order of the rows -/

theorem eq_of_forall₂ {α β : Type*} {R S : α → β → Prop} {l : List α} {xs ys : List β}
    (hx : List.Forall₂ R l xs) (hy : List.Forall₂ S l ys)
    (h : ∀ a ∈ l, ∀ x ∈ xs, ∀ y ∈ ys, R a x → S a y → x = y) : xs = ys := by
  induction hx generalizing ys with
  | nil =>
    cases hy
    rfl
  | cons hax _ ih =>
    cases hy with
    | cons hay hys =>
      rw [h _ List.mem_cons_self _ List.mem_cons_self _ List.mem_cons_self hax hay, ih hys
        fun a ha x hx y hy => h a (List.mem_cons_of_mem _ ha) x (List.mem_cons_of_mem _ hx) y
          (List.mem_cons_of_mem _ hy)]

theorem vectors_ext {vs vs' : List Vector} {n : ℕ}
    (hty : vs.map Vector.logicalType = vs'.map Vector.logicalType)
    (hlen : ∀ v ∈ vs, v.len = n) (hlen' : ∀ v ∈ vs', v.len = n)
    (hget : ∀ g < n, vs.map (·.get g) = vs'.map (·.get g)) : vs = vs' := by
  have hlength : vs.length = vs'.length := by
    simpa using congrArg List.length hty
  refine List.ext_getElem hlength fun i hi hi' => ?_
  have hn := hlen _ (List.getElem_mem hi)
  refine Vector.ext_get ?_ (hn.trans (hlen' _ (List.getElem_mem hi')).symm) fun g hg => ?_
  · simpa [hi, hi'] using congrArg (·[i]?) hty
  · simpa [hi, hi'] using congrArg (·[i]?) (hget g (hn ▸ hg))

/-- The rows of a batch in another order. -/
def reorder (columns : List Vector) (perm : List ℕ) : List Vector :=
  columns.map (·.gather (perm.map some))

section

variable {groupKeys : List Expr} {aggregators : List Aggregator} {columns columns' : List Vector}
  {rows : ℕ} {perm : List ℕ}

theorem logicalType_reorder (columns : List Vector) (perm : List ℕ) :
    (reorder columns perm).map Vector.logicalType = columns.map Vector.logicalType := by
  rw [reorder, List.map_map]
  rfl

theorem valueAt_reorder (e : Expr) {i r : ℕ} (hi : perm[i]? = some r) :
    valueAt (reorder columns perm) e i = valueAt columns e r := by
  rw [valueAt, reorder, List.map_map]
  refine congrArg (evalRow e) (List.map_congr_left fun v _ => ?_)
  rw [Function.comp, Vector.get_gather, List.getElem?_map, hi]
  rfl

theorem keyTuple_reorder {i r : ℕ} (hi : perm[i]? = some r) :
    keyTuple (reorder columns perm) groupKeys i = keyTuple columns groupKeys r :=
  List.map_congr_left fun e _ => valueAt_reorder e hi

theorem Aggregable.reorder (h : Aggregable groupKeys aggregators columns rows)
    (hperm : perm.Perm (List.range rows)) :
    Aggregable groupKeys aggregators (reorder columns perm) rows := by
  constructor
  case len =>
    intro e he i hi v hv
    rw [SteleDb.reorder, List.getElem?_map, Option.map_eq_some_iff] at hv
    obtain ⟨w, -, rfl⟩ := hv
    rw [Vector.len_gather, List.length_map, hperm.length_eq, List.length_range]
  case keys =>
    rw [logicalType_reorder]
    exact h.keys
  case admitted =>
    rw [logicalType_reorder]
    exact h.admitted
  case literals => exact h.literals
  case cells =>
    intro v hv i x hx
    obtain ⟨w, hw, rfl⟩ := List.mem_map.1 hv
    rw [Vector.get_gather, Option.bind_eq_some_iff] at hx
    obtain ⟨r, -, hx⟩ := hx
    exact h.cells w hw r x hx

theorem filterMap_getElem? {rs : List ℕ} (h : ∀ i ∈ rs, i < perm.length) :
    rs.filterMap (perm[·]?) = rs.map fun i => perm[i]?.getD 0 := by
  have hsome : ∀ i ∈ rs, perm[i]? = some (perm[i]?.getD 0) := by
    intro i hi
    rw [List.getElem?_eq_getElem (h i hi)]
    rfl
  rw [List.filterMap_congr hsome, List.filterMap_eq_map']

/-- The rows of a group in the new order are those of the old order. -/
theorem groupRows_reorder (hperm : perm.Perm (List.range rows)) (k : List (Option ScalarValue)) :
    ((groupRows (reorder columns perm) groupKeys rows k).filterMap (perm[·]?)).Perm
      (groupRows columns groupKeys rows k) := by
  have hlen : perm.length = rows := by
    rw [hperm.length_eq, List.length_range]
  have hall : (List.range rows).filterMap (perm[·]?) = perm := by
    subst hlen
    rw [filterMap_getElem? fun i hi => List.mem_range.1 hi]
    exact List.ext_getElem (by simp) fun i hi hi' => by simp [hi']
  have hfilter : (groupRows (SteleDb.reorder columns perm) groupKeys rows k).filterMap (perm[·]?) =
      perm.filter fun r => keyTuple columns groupKeys r = k := by
    conv_rhs => rw [← hall, List.filter_filterMap]
    rw [groupRows, List.filterMap_filter]
    refine List.filterMap_congr fun i hi => ?_
    have hlt : i < perm.length := hlen ▸ List.mem_range.1 hi
    have hget := List.getElem?_eq_getElem hlt
    rw [hget, keyTuple_reorder hget]
    by_cases hk : keyTuple columns groupKeys perm[i] = k <;> simp [hk, Option.filter]
  rw [hfilter]
  exact hperm.filter _

theorem valuesAt_reorder (e : Expr) {rs : List ℕ} (hrs : ∀ r ∈ rs, r < perm.length) :
    valuesAt (reorder columns perm) e rs = valuesAt columns e (rs.filterMap (perm[·]?)) := by
  rw [valuesAt, valuesAt, List.filterMap_filterMap]
  refine List.filterMap_congr fun i hi => ?_
  have hget := List.getElem?_eq_getElem (hrs i hi)
  rw [valueAt_reorder e hget, hget]
  rfl

/-- `MIN` and `MAX` have one value, which the order of the rows does not change. -/
theorem extreme_unique {o : Ordering} (ho : o = .lt ∨ o = .gt) {ty : LogicalType}
    {values values' : List ScalarValue} (hp : values.Perm values')
    (hty : ∀ x ∈ values, x.logicalType = ty) {v v' : Option ScalarValue}
    (h : (values = [] ∧ v = none) ∨ ∃ x, v = some x ∧ IsExtreme o values x)
    (h' : (values' = [] ∧ v' = none) ∨ ∃ x, v' = some x ∧ IsExtreme o values' x) : v = v' := by
  rcases h with ⟨rfl, rfl⟩ | ⟨x, rfl, hx⟩
  · rcases h' with ⟨-, rfl⟩ | ⟨y, rfl, hy⟩
    · rfl
    · rw [List.nil_perm.1 hp] at hy
      cases hy.1
  · rcases h' with ⟨rfl, rfl⟩ | ⟨y, rfl, hy⟩
    · rw [List.perm_nil.1 hp] at hx
      cases hx.1
    · rw [hx.unique ho hy hp hty]

/-- An aggregate has one value, which the order of the rows does not change. -/
theorem AggValue.unique {agg : Aggregator} (hadm : agg.Admitted (columns.map Vector.logicalType))
    {rs rs' : List ℕ} (hrs : ∀ r ∈ rs, r < rows)
    (hlen : ∀ e, agg.arg = some e → ∀ i ∈ e.collectColumns, ∀ v,
      columns[i]? = some v → v.len = rows) (hlength : rs.length = rs'.length)
    (hvalues : ∀ e, (valuesAt columns e rs).Perm (valuesAt columns' e rs'))
    {v v' : Option ScalarValue} (h : AggValue columns agg rs v)
    (h' : AggValue columns' agg rs' v') : v = v' := by
  obtain ⟨func, arg⟩ := agg
  cases arg with
  | none =>
    cases func with
    | count =>
      simp only [AggValue] at h h'
      rw [h, h', hlength]
    | sum | avg | min | max => exact h.elim
  | some e =>
    have hperm := hvalues e
    have hnil : valuesAt columns e rs = [] ↔ valuesAt columns' e rs' = [] := by
      rw [← List.length_eq_zero_iff, ← List.length_eq_zero_iff, hperm.length_eq]
    have hsum := (hperm.map scalarI128).sum_eq
    cases func with
    | count =>
      simp only [AggValue] at h h'
      rw [h, h', hperm.length_eq]
    | sum =>
      simp only [AggValue, hnil, hsum] at h h'
      rw [h, h']
    | avg =>
      simp only [AggValue, hnil, hsum, hperm.length_eq] at h h'
      rw [h, h']
    | min =>
      obtain ⟨ty, hty, -⟩ := hadm
      have hr := reads_of_type (hlen e rfl) hty
      exact extreme_unique (.inl rfl) hperm (fun x hx => hr.type_values hrs hx) h h'
    | max =>
      obtain ⟨ty, hty, -⟩ := hadm
      have hr := reads_of_type (hlen e rfl) hty
      exact extreme_unique (.inr rfl) hperm (fun x hx => hr.type_values hrs hx) h h'

theorem IsGrouping.mem_reorder {out out' : AggregateOutput}
    {tuples tuples' : List (List (Option ScalarValue))} (hperm : perm.Perm (List.range rows))
    (h : IsGrouping groupKeys aggregators columns rows out tuples)
    (h' : IsGrouping groupKeys aggregators (reorder columns perm) rows out' tuples') :
    ∀ k, k ∈ tuples ↔ k ∈ tuples' := by
  intro k
  rw [h.mem_iff, h'.mem_iff]
  refine or_congr_left ⟨?_, ?_⟩
  · rintro ⟨r, hr, hk⟩
    obtain ⟨i, hi, heq⟩ := List.mem_iff_getElem.1 (hperm.mem_iff.2 (List.mem_range.2 hr))
    have hlt : i < rows := by
      rw [hperm.length_eq, List.length_range] at hi
      exact hi
    refine ⟨i, hlt, ?_⟩
    rw [keyTuple_reorder (List.getElem?_eq_some_iff.2 ⟨hi, heq⟩), hk]
  · rintro ⟨i, hi, hk⟩
    have hlt : i < perm.length := by
      rw [hperm.length_eq, List.length_range]
      exact hi
    refine ⟨perm[i], List.mem_range.1 (hperm.mem_iff.1 (List.getElem_mem hlt)), ?_⟩
    rw [← hk, keyTuple_reorder (List.getElem?_eq_getElem hlt)]

theorem eq_of_encodeTuple_sorted {tuples tuples' : List (List (Option ScalarValue))}
    (h : tuples.Pairwise fun a b => encodeTuple a < encodeTuple b)
    (h' : tuples'.Pairwise fun a b => encodeTuple a < encodeTuple b)
    (hmem : ∀ k, k ∈ tuples ↔ k ∈ tuples') : tuples = tuples' := by
  have hne : ∀ {a b : List (Option ScalarValue)}, encodeTuple a < encodeTuple b → a ≠ b := by
    rintro a b hlt rfl
    exact lt_irrefl _ hlt
  have hp := (List.perm_ext_iff_of_nodup (h.imp hne) (h'.imp hne)).2 hmem
  exact hp.eq_of_pairwise (fun a b _ _ hab hba => absurd hba (lt_asymm hab)) h h'

/-- **A grouping is determined by the rows**, not by their order. -/
theorem IsGrouping.unique (hadm : Aggregable groupKeys aggregators columns rows)
    (hperm : perm.Perm (List.range rows)) {out out' : AggregateOutput}
    {tuples tuples' : List (List (Option ScalarValue))}
    (h : IsGrouping groupKeys aggregators columns rows out tuples)
    (h' : IsGrouping groupKeys aggregators (reorder columns perm) rows out' tuples') :
    out = out' := by
  cases eq_of_encodeTuple_sorted h.sorted h'.sorted (h.mem_reorder hperm h')
  have hlen : perm.length = rows := by
    rw [hperm.length_eq, List.length_range]
  have hsome : ∀ g < tuples.length, ∃ k, tuples[g]? = some k := fun g hg =>
    ⟨_, List.getElem?_eq_getElem hg⟩
  have hgroups : out.groups = out'.groups := by
    refine vectors_ext ?_ (fun v hv => h.len v (List.mem_append_left _ hv))
      (fun v hv => h'.len v (List.mem_append_left _ hv)) fun g hg => ?_
    · have htypes : List.Forall₂ (fun e ty => exprType e (columns.map Vector.logicalType) = .ok ty)
          groupKeys (out.groups.map Vector.logicalType) := List.forall₂_map_right_iff.2 h.types
      have htypes' : List.Forall₂ (fun e ty => exprType e (columns.map Vector.logicalType) = .ok ty)
          groupKeys (out'.groups.map Vector.logicalType) := by
        rw [List.forall₂_map_right_iff, ← logicalType_reorder columns perm]
        exact h'.types
      exact eq_of_forall₂ htypes htypes' fun e _ x _ y _ hx hy =>
        Except.ok.inj (hx.symm.trans hy)
    · obtain ⟨k, hk⟩ := hsome g hg
      rw [h.keys g k hk, h'.keys g k hk]
  have haggs : out.aggregates = out'.aggregates := by
    refine eq_of_forall₂ h.aggregates h'.aggregates fun agg hagg v hv v' hv' hx hy => ?_
    have hn := h.len v (List.mem_append_right _ hv)
    have hn' := h'.len v' (List.mem_append_right _ hv')
    refine Vector.ext_get ?_ (hn.trans hn'.symm) fun g hg => ?_
    · rw [logicalType_reorder] at hy
      exact Except.ok.inj (hx.1.symm.trans hy.1)
    · obtain ⟨k, hk⟩ := hsome g (hn ▸ hg)
      -- the rows of the group are the same ones, at other positions
      have hrows : (groupRows columns groupKeys rows k).Perm
          ((groupRows (reorder columns perm) groupKeys rows k).filterMap (perm[·]?)) :=
        (groupRows_reorder hperm k).symm
      have hlt : ∀ i ∈ groupRows (reorder columns perm) groupKeys rows k, i < perm.length :=
        fun i hi => hlen ▸ groupRows_lt k i hi
      have hlength := hrows.length_eq
      rw [filterMap_getElem? hlt, List.length_map] at hlength
      exact AggValue.unique (hadm.admitted agg hagg) (groupRows_lt k)
        (fun e he => hadm.len_arg hagg he) hlength
        (fun e => (hrows.filterMap _).trans (.of_eq (valuesAt_reorder e hlt).symm))
        (hx.2 g k hk) (hy.2 g k hk)
  obtain ⟨groups, aggregates, n⟩ := out
  obtain ⟨groups', aggregates', n'⟩ := out'
  cases hgroups
  cases haggs
  cases h.numGroups
  cases h'.numGroups
  rfl

/-- **The order of the rows** does not change the output. -/
theorem hashAggregate_reorder (h : Aggregable groupKeys aggregators columns rows)
    (hperm : perm.Perm (List.range rows)) :
    hashAggregate groupKeys aggregators (reorder columns perm) rows =
      hashAggregate groupKeys aggregators columns rows := by
  obtain ⟨out, hout, hgroup⟩ := isGrouping_hashAggregate h
  obtain ⟨out', hout', hgroup'⟩ := isGrouping_hashAggregate (h.reorder hperm)
  rw [hout, hout', hgroup.unique h hperm hgroup']

/-- Without grouping keys there is one group. -/
theorem IsGrouping.numGroups_eq_one {out : AggregateOutput}
    {tuples : List (List (Option ScalarValue))}
    (h : IsGrouping [] aggregators columns rows out tuples) : out.numGroups = 1 := by
  have hmem : ∀ k, k ∈ tuples ↔ k ∈ [([] : List (Option ScalarValue))] := by
    intro k
    rw [h.mem_iff, List.mem_singleton]
    constructor
    · rintro (⟨r, -, rfl⟩ | ⟨-, rfl⟩) <;> rfl
    · rintro rfl
      exact .inr ⟨rfl, rfl⟩
  rw [h.numGroups, eq_of_encodeTuple_sorted h.sorted (List.pairwise_singleton _ _) hmem]
  rfl

end

end SteleDb
