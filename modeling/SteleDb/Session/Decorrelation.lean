import SteleDb.Common.HashKey
import SteleDb.Exec.VectorJoin
import SteleDb.Session.CorrelatedSubquery

/-!
# Correlated subqueries as joins

Where the correlation is an equality and the inner query is a plain scan, the inner query need not
run for each outer row: it runs once, and `[NOT] EXISTS` is a semi (anti) join on the correlation
key, `IN` a semi join on the pair of the key and the tested value.  `NOT IN` is an anti join on the
pair, from which the rows are dropped whose group makes the predicate `UNKNOWN`: a group that is not
empty, for a tested value that is `NULL`, and a group with a `NULL` in it.

* `semiAnti_ok`, `compositeSemi_ok`, `compositeAnti_ok` : each join keeps the rows for which the
  subquery is true, and has then read every cell that the plain way reads;
* `filterCorrelatedSubquery_eq_filterPerRow` : so the joins agree with the plain way.

The plain way reads the cells of the inner rows only if there is an outer row with a key, so it may
succeed where a join fails on a cell that cannot be read.
-/

namespace SteleDb

open RowFilter

namespace Subquery

/-! ### Joins -/

/-- A plan on one key. -/
structure SemiAntiDecorrelation where
  /-- Which join. -/
  joinType : JoinType
  /-- The key of the outer row. -/
  outerColumn : ℕ
  /-- The key of the inner row. -/
  innerColumn : ℕ
  deriving DecidableEq, Repr

/-- A plan on a key and a member. -/
structure CompositeKeyDecorrelation where
  /-- The key of the outer row. -/
  outerKeyColumn : ℕ
  /-- The tested column of the outer row. -/
  outerMemberColumn : ℕ
  /-- The key in the inner result. -/
  innerKeyColumn : ℕ
  /-- The member in the inner result. -/
  innerMemberColumn : ℕ
  deriving DecidableEq, Repr

/-- The query is a plain scan. -/
def BoundSelect.isPlainScan : BoundSelect → Bool
  | plain _ => true
  | other _ => false

/-- The select list of a plain scan has two columns. -/
def BoundSelect.hasTwoItems : BoundSelect → Bool
  | plain q =>
    match q.projection with
    | .items columns => columns.length = 2
    | .all => false
  | other _ => false

namespace BoundSubqueryFilter

/-- The plan for `[NOT] EXISTS`. -/
def semiAntiDecorrelation (sub : BoundSubqueryFilter) : Option SemiAntiDecorrelation :=
  if sub.correlation.op ≠ .eq then none
  else
    match sub.kind with
    | .existence negated =>
      if !sub.subquery.isPlainScan then none
      else some ⟨if negated then .anti else .semi, sub.correlation.outerColumn,
        sub.correlation.innerColumn⟩
    | .inSet .. | .scalar .. => none

/-- The plan for `IN` or `NOT IN`. -/
def compositeKeyDecorrelation (sub : BoundSubqueryFilter) (wantNegated : Bool) :
    Option CompositeKeyDecorrelation :=
  if sub.correlation.op ≠ .eq then none
  else
    match sub.kind with
    | .inSet column negated =>
      if negated ≠ wantNegated then none
      else if !sub.subquery.isPlainScan then none
      else if !sub.subquery.hasTwoItems then none
      else some ⟨sub.correlation.outerColumn, column, 1, 0⟩
    | .existence .. | .scalar .. => none

end BoundSubqueryFilter

/-- Append bytes behind their length. -/
def pushLenPrefixed (out bytes : Bytes) : Bytes := out ++ (beBytes 8 bytes.length ++ bytes)

/-- The key for two values, `NULL` if one of them is. -/
def compositeCell : Option ScalarValue → Option ScalarValue → Option Bytes
  | some va, some vb => some (pushLenPrefixed (pushLenPrefixed [] va.encode) vb.encode)
  | _, _ => none

/-- The vector of the keys of two columns. -/
def compositeKeyVector (rows : List Cells) (first second : ℕ × LogicalType) :
    Except ScanError Vector := do
  let a ← keyVector rows first.1 first.2
  let b ← keyVector rows second.1 second.2
  .ok ⟨.bytea, (List.range rows.length).map fun i => compositeCell (a.get i) (b.get i)⟩

/-- Take the rows at some positions out of the list; what is taken leaves an empty row. -/
def takeRows : List ℕ → List Cells → List Cells
  | [], _ => []
  | l :: rest, rows => rows.getD l [] :: takeRows rest (rows.set l [])

/-- Join two sides on the vectors of their keys. -/
def joinKeys (t : JoinType) (outerKeys : Vector) (outerRows : ℕ) (innerKeys : Vector)
    (innerRows : ℕ) : Except EngineError JoinIndices :=
  (hashJoinColumns t [outerKeys] outerRows (.column 0) [innerKeys] innerRows
    (.column 0)).mapError fun e => .scan (.eval e)

/-- The keys of the groups: of those with a row, and of those with a `NULL` member. -/
structure GroupKeys where
  /-- The groups that are not empty. -/
  nonempty : Finset Bytes
  /-- The groups with a `NULL` member. -/
  nullMember : Finset Bytes

/-- The keys of the groups of `n` inner rows. -/
def trackGroups (key member : Vector) (n : ℕ) : GroupKeys :=
  (List.range n).foldl (fun groups j =>
    match key.get j with
    -- a row without a key is in no group
    | none => groups
    | some sk =>
      ⟨insert sk.encode groups.nonempty,
        if (member.get j).isNone then insert sk.encode groups.nullMember else groups.nullMember⟩)
    ⟨∅, ∅⟩

/-- `NOT IN` is `UNKNOWN` for an outer row that has no partner. -/
def GroupKeys.drops (groups : GroupKeys) (key member : Option ScalarValue) : Bool :=
  match key with
  | none => false
  | some tk =>
    tk.encode ∈ groups.nonempty && (member.isNone || tk.encode ∈ groups.nullMember)

namespace BoundSubqueryFilter

/-- `[NOT] EXISTS` by a join. -/
def filterSemiAntiDecorrelated (plan : SemiAntiDecorrelation) (sub : BoundSubqueryFilter)
    (schema : List LogicalType) (rows : List Cells) : Except EngineError (List Cells) := do
  let inner ← sub.subquery.runSelect none
  let keyTy := schema.getD plan.outerColumn .bool
  let outerKeys ← (keyVector rows plan.outerColumn keyTy).mapError .scan
  let innerKeys ← (keyVector inner.rows plan.innerColumn keyTy).mapError .scan
  let indices ← joinKeys plan.joinType outerKeys rows.length innerKeys inner.rows.length
  .ok (takeRows indices.left rows)

/-- `IN` by a join. -/
def filterCompositeSemiDecorrelated (plan : CompositeKeyDecorrelation) (sub : BoundSubqueryFilter)
    (schema : List LogicalType) (rows : List Cells) : Except EngineError (List Cells) := do
  let inner ← sub.subquery.runSelect none
  let keyTy := schema.getD plan.outerKeyColumn .bool
  let memberTy := schema.getD plan.outerMemberColumn .bool
  let outerKeys ← (compositeKeyVector rows (plan.outerKeyColumn, keyTy)
    (plan.outerMemberColumn, memberTy)).mapError .scan
  let innerKeys ← (compositeKeyVector inner.rows (plan.innerKeyColumn, keyTy)
    (plan.innerMemberColumn, memberTy)).mapError .scan
  let indices ← joinKeys .semi outerKeys rows.length innerKeys inner.rows.length
  .ok (takeRows indices.left rows)

/-- `NOT IN` by a join, and a look at the groups. -/
def filterCompositeAntiDecorrelated (plan : CompositeKeyDecorrelation) (sub : BoundSubqueryFilter)
    (schema : List LogicalType) (rows : List Cells) : Except EngineError (List Cells) := do
  let inner ← sub.subquery.runSelect none
  let keyTy := schema.getD plan.outerKeyColumn .bool
  let memberTy := schema.getD plan.outerMemberColumn .bool
  let outerKeys ← (compositeKeyVector rows (plan.outerKeyColumn, keyTy)
    (plan.outerMemberColumn, memberTy)).mapError .scan
  let innerKeys ← (compositeKeyVector inner.rows (plan.innerKeyColumn, keyTy)
    (plan.innerMemberColumn, memberTy)).mapError .scan
  let indices ← joinKeys .anti outerKeys rows.length innerKeys inner.rows.length
  let innerKeyCol ← (keyVector inner.rows plan.innerKeyColumn keyTy).mapError .scan
  let innerMemberCol ← (keyVector inner.rows plan.innerMemberColumn memberTy).mapError .scan
  let groups := trackGroups innerKeyCol innerMemberCol inner.rows.length
  let outerKeyCol ← (keyVector rows plan.outerKeyColumn keyTy).mapError .scan
  let outerMemberCol ← (keyVector rows plan.outerMemberColumn memberTy).mapError .scan
  let kept := indices.left.filter fun l => !groups.drops (outerKeyCol.get l) (outerMemberCol.get l)
  .ok (takeRows kept rows)

/-- Filter rows by a correlated subquery. -/
def filterCorrelatedSubquery (sub : BoundSubqueryFilter) (schema addressable : List LogicalType)
    (rows : List Cells) : Except EngineError (List Cells) :=
  match sub.semiAntiDecorrelation with
  | some plan => sub.filterSemiAntiDecorrelated plan schema rows
  | none =>
    match sub.compositeKeyDecorrelation false with
    | some plan => sub.filterCompositeSemiDecorrelated plan schema rows
    | none =>
      match sub.compositeKeyDecorrelation true with
      | some plan => sub.filterCompositeAntiDecorrelated plan schema rows
      | none => sub.filterPerRow schema addressable rows

end BoundSubqueryFilter

/-! ### Keys -/

theorem encodedKeys_eq {keys : Vector} {rows : List Cells} {f : Cells → Option Bytes}
    (h : ∀ i row, rows[i]? = some row → (keys.get i).map encodeScalar = f row) :
    encodedKeys keys rows.length = rows.map f := by
  refine List.ext_getElem (by simp [encodedKeys]) fun i hi hi' => ?_
  have hi' : i < rows.length := by simpa using hi'
  simp only [encodedKeys, List.getElem_map, List.getElem_range]
  exact h i _ (List.getElem?_eq_getElem hi')

theorem joinKeys_eq {outerKeys innerKeys : Vector} {rows inner : List Cells}
    {f g : Cells → Option Bytes} (t : JoinType) (houter : outerKeys.len = rows.length)
    (hinner : innerKeys.len = inner.length)
    (hf : ∀ i row, rows[i]? = some row → (outerKeys.get i).map encodeScalar = f row)
    (hg : ∀ i row, inner[i]? = some row → (innerKeys.get i).map encodeScalar = g row) :
    joinKeys t outerKeys rows.length innerKeys inner.length =
      .ok (hashJoin t (rows.map f) (inner.map g)) := by
  simp [joinKeys, hashJoinColumns, evalExpr, houter, hinner, encodedKeys_eq hf, encodedKeys_eq hg,
    bind, Except.bind, Except.mapError]

/-- The key of one column. -/
def keyCell (ty : LogicalType) (i : ℕ) (row : Cells) : Option Bytes :=
  (value ty i row).map encodeScalar

/-- The key of two columns. -/
def pairCell (key member : LogicalType × ℕ) (row : Cells) : Option Bytes :=
  compositeCell (value key.1 key.2 row) (value member.1 member.2 row)

theorem keyCell_columnVector {ty : LogicalType} {i j : ℕ} {rows : List Cells} {row : Cells}
    (h : rows[j]? = some row) : ((columnVector ty i rows).get j).map encodeScalar =
      keyCell ty i row := by
  rw [get_columnVector h, keyCell]

/-- The vector of a pair of columns can be built if both can be read. -/
theorem compositeKeyVector_eq_ok {rows : List Cells} {key member : ℕ × LogicalType} {v : Vector} :
    compositeKeyVector rows key member = .ok v ↔
      (ReadsColumn key.2 key.1 rows ∧ ReadsColumn member.2 member.1 rows) ∧
        v = ⟨.bytea, rows.map (pairCell (key.2, key.1) (member.2, member.1))⟩ := by
  have hcells : ((List.range rows.length).map fun i =>
      compositeCell ((columnVector key.2 key.1 rows).get i)
        ((columnVector member.2 member.1 rows).get i)) =
      rows.map (pairCell (key.2, key.1) (member.2, member.1)) := by
    refine List.ext_getElem (by simp) fun i hi hi' => ?_
    have hi' : i < rows.length := by simpa using hi'
    rw [List.getElem_map, List.getElem_map, List.getElem_range,
      get_columnVector (List.getElem?_eq_getElem hi'),
      get_columnVector (List.getElem?_eq_getElem hi'), pairCell]
  constructor
  · intro h
    obtain ⟨a, ha, h⟩ := exists_of_bind_ok h
    obtain ⟨b, hb, h⟩ := exists_of_bind_ok h
    obtain ⟨hka, rfl⟩ := keyVector_eq_ok.1 ha
    obtain ⟨hkb, rfl⟩ := keyVector_eq_ok.1 hb
    cases h
    exact ⟨⟨hka, hkb⟩, by rw [hcells]⟩
  · rintro ⟨⟨hka, hkb⟩, rfl⟩
    rw [compositeKeyVector, keyVector_eq_ok.2 ⟨hka, rfl⟩, keyVector_eq_ok.2 ⟨hkb, rfl⟩]
    simp only [bind, Except.bind, hcells]

theorem pairCell_vector {key member : LogicalType × ℕ} {rows : List Cells} {j : ℕ} {row : Cells}
    (h : rows[j]? = some row) :
    (Vector.get ⟨.bytea, rows.map (pairCell key member)⟩ j).map encodeScalar =
      pairCell key member row := by
  rw [Vector.get_mk_map, h, Option.bind_some, Option.map_map]
  exact Option.map_id'

/-- The bytes of a cell are as many as those of its value. -/
theorem length_encode {ty : LogicalType} {bytes : Bytes} {v : ScalarValue}
    (h : ScalarValue.decode ty bytes = .ok v) : v.encode.length = bytes.length := by
  have hfixed : ∀ {n raw}, ScalarValue.fixed ty n bytes = .ok raw →
      raw = bytes ∧ bytes.length = n := by
    intro n raw hf
    rw [ScalarValue.fixed] at hf
    split_ifs at hf with hlen
    cases hf
    exact ⟨rfl, hlen⟩
  cases ty
  case text =>
    rw [ScalarValue.decode] at h
    split_ifs at h
    cases h
    rfl
  case bytea =>
    cases h
    rfl
  case period =>
    simp only [ScalarValue.decode] at h
    obtain ⟨raw, hf, h⟩ := exists_of_bind_ok h
    split_ifs at h
    cases h
    simp [ScalarValue.encode, i64ToLeBytes, (hfixed hf).2]
  all_goals
    obtain ⟨raw, hf, rfl⟩ := exists_of_map_ok h
    obtain ⟨rfl, hlen⟩ := hfixed hf
    simp [ScalarValue.encode, i64ToLeBytes, i32ToLeBytes, hlen]

/-- The cells of the rows are shorter than `u64` counts. -/
def InMemory (rows : List Cells) : Prop :=
  ∀ row ∈ rows, ∀ bytes, some bytes ∈ row → bytes.length < 2 ^ 64

theorem InMemory.length_lt {rows : List Cells} (h : InMemory rows) {row : Cells} (hrow : row ∈ rows)
    {ty : LogicalType} {i : ℕ} {v : ScalarValue} (hv : value ty i row = some v) :
    v.encode.length < 256 ^ 8 := by
  obtain ⟨bytes, hcell, hd⟩ := value_eq_some.1 hv
  rw [cell] at hcell
  have hget : row[i]? = some (some bytes) := by
    cases hr : row[i]? with
    | none => simp [hr] at hcell
    | some c => rw [hr] at hcell; exact congrArg some hcell
  rw [length_encode hd]
  exact lt_of_lt_of_eq (h row hrow bytes (List.mem_of_getElem? hget)) (by norm_num)

theorem eq_of_encode {ty : LogicalType} {i j : ℕ} {row row' : Cells} {v w : ScalarValue}
    (hv : value ty i row = some v) (hw : value ty j row' = some w)
    (h : v.encode = w.encode) : v = w :=
  ScalarValue.encode_inj (fits_value hv) (fits_value hw)
    ((logicalType_value hv).trans (logicalType_value hw).symm) h

/-- **A pair of keys determines its components**, as the lengths in front keep them apart. -/
theorem pairCell_eq {key member : LogicalType} {i j i' j' : ℕ} {rows rows' : List Cells}
    (hm : InMemory rows) (hm' : InMemory rows') {row row' : Cells} (hrow : row ∈ rows)
    (hrow' : row' ∈ rows') {k : Bytes} :
    (pairCell (key, i) (member, j) row = some k ∧ pairCell (key, i') (member, j') row' = some k) ↔
      ∃ a b, value key i row = some a ∧ value member j row = some b ∧
        value key i' row' = some a ∧ value member j' row' = some b ∧
        compositeCell (some a) (some b) = some k := by
  constructor
  · rintro ⟨h, h'⟩
    rw [pairCell] at h h'
    cases ha : value key i row with
    | none => simp [ha, compositeCell] at h
    | some a =>
      cases hb : value member j row with
      | none => simp [ha, hb, compositeCell] at h
      | some b =>
        cases ha' : value key i' row' with
        | none => simp [ha', compositeCell] at h'
        | some a' =>
          cases hb' : value member j' row' with
          | none => simp [ha', hb', compositeCell] at h'
          | some b' =>
            simp only [ha, hb, ha', hb', compositeCell, pushLenPrefixed, List.nil_append,
              Option.some.injEq] at h h'
            -- the lengths in front are the same, and then what they count
            have heq := h.trans h'.symm
            rw [List.append_assoc, List.append_assoc] at heq
            obtain ⟨hl, heq⟩ := HashKey.selfDelimiting_beBytes 8 _ _ _ _ (hm.length_lt hrow ha)
              (hm'.length_lt hrow' ha') heq
            obtain ⟨hea, heq⟩ := List.append_inj heq hl
            obtain ⟨-, heb⟩ := HashKey.selfDelimiting_beBytes 8 _ _ _ _ (hm.length_lt hrow hb)
              (hm'.length_lt hrow' hb') heq
            obtain rfl := eq_of_encode ha ha' hea
            obtain rfl := eq_of_encode hb hb' heb
            exact ⟨a, b, rfl, rfl, rfl, rfl, congrArg some h⟩
  · rintro ⟨a, b, ha, hb, ha', hb', hk⟩
    rw [pairCell, pairCell, ha, hb, ha', hb']
    exact ⟨hk, hk⟩

/-! ### Rows of a join -/

theorem mem_partners {β γ : Type*} {f : β → Option Bytes} {g : γ → Option Bytes} {rows : List γ}
    {x : β} {y : γ} : y ∈ partners f g rows x ↔ y ∈ rows ∧ ∃ k, f x = some k ∧ g y = some k := by
  rw [partners]
  cases f x with
  | none => simp
  | some k => simp

theorem takeRows_eq {ls : List ℕ} (hnd : ls.Nodup) {rows : List Cells}
    (hlt : ∀ l ∈ ls, l < rows.length) : takeRows ls rows = ls.filterMap (rows[·]?) := by
  induction ls generalizing rows with
  | nil => rfl
  | cons l ls ih =>
    obtain ⟨hl, hnd⟩ := List.nodup_cons.1 hnd
    have hget := List.getElem?_eq_getElem (hlt l List.mem_cons_self)
    rw [takeRows, ih hnd fun m hm => by
      rw [List.length_set]
      exact hlt m (List.mem_cons_of_mem _ hm)]
    rw [List.filterMap_cons_some hget, List.getD_eq_getElem?_getD, hget, Option.getD_some]
    -- the rows taken later are not the one that is empty now
    refine congrArg _ (List.filterMap_congr fun m hm => List.getElem?_set_ne ?_)
    rintro rfl
    exact hl hm

theorem left_sublist_range {t : JoinType} (ht : t.keepsRight = false)
    (leftKeys rightKeys : List (Option Bytes)) :
    (hashJoin t leftKeys rightKeys).left.Sublist (List.range leftKeys.length) := by
  have hsub : ∀ (l : List (Option Bytes × ℕ)) (table : OrdMap Bytes (List ℕ)),
      ((l.map fun e => t.emit e.2 (probe table e.1)).flatMap JoinIndices.left).Sublist
        (l.map Prod.snd) := by
    intro l table
    induction l with
    | nil => exact List.Sublist.refl _
    | cons e l ih =>
      rw [List.map_cons, List.flatMap_cons, List.map_cons, ← List.singleton_append]
      refine List.Sublist.append ?_ ih
      cases t with
      | inner => cases ht
      | left => cases ht
      | semi =>
        rw [JoinType.emit]
        by_cases h : probe table e.1 = [] <;> simp [h]
      | anti =>
        rw [JoinType.emit]
        by_cases h : probe table e.1 = [] <;> simp [h]
  have hrange : leftKeys.zipIdx.map Prod.snd = List.range leftKeys.length := by
    simp [List.range_eq_range']
  exact hrange ▸ hsub leftKeys.zipIdx (buildTable rightKeys)

section Taken

variable (rows inner : List Cells) (f g : Cells → Option Bytes)

theorem takeRows_left {t : JoinType} (ht : t.keepsRight = false) (p : ℕ → Bool) :
    takeRows ((hashJoin t (rows.map f) (inner.map g)).left.filter p) rows =
      ((hashJoin t (rows.map f) (inner.map g)).left.filter p).filterMap (rows[·]?) := by
  have hsub := left_sublist_range ht (rows.map f) (inner.map g)
  rw [List.length_map] at hsub
  refine takeRows_eq ((hsub.nodup List.nodup_range).filter _) fun l hl => ?_
  exact List.mem_range.1 (hsub.subset (List.mem_of_mem_filter hl))

theorem flatMap_if {β : Type*} (l : List β) (p : β → Bool) :
    (l.flatMap fun x => if p x then [x] else []) = l.filter p := by
  induction l with
  | nil => rfl
  | cons x l ih =>
    rw [List.flatMap_cons, ih, List.filter_cons]
    by_cases hp : p x <;> simp [hp]

/-- A semi join keeps the rows with a partner. -/
theorem taken_semi : takeRows (hashJoin .semi (rows.map f) (inner.map g)).left rows =
    rows.filter fun row => partners f g inner row ≠ [] := by
  have h := takeRows_left rows inner f g (t := .semi) rfl fun _ => true
  rw [List.filter_true] at h
  rw [h, gather_semi, ← flatMap_if]
  refine List.flatMap_congr fun row _ => ?_
  by_cases hp : partners f g inner row = [] <;> simp [hp]

/-- An anti join keeps the rows without one, and of these the ones that pass a test. -/
theorem taken_anti (p : ℕ → Bool) (p' : Cells → Bool)
    (hp : ∀ l row, rows[l]? = some row → p l = p' row) :
    takeRows ((hashJoin .anti (rows.map f) (inner.map g)).left.filter p) rows =
      rows.filter fun row => partners f g inner row = [] ∧ p' row := by
  have hfilter : ∀ ls : List ℕ, (ls.filter p).filterMap (rows[·]?) =
      (ls.filterMap (rows[·]?)).filter p' := by
    intro ls
    rw [List.filterMap_filter, List.filter_filterMap]
    refine List.filterMap_congr fun l _ => ?_
    cases hrow : rows[l]? with
    | none => simp
    | some row => simp [hp l row hrow, Option.filter]
  rw [takeRows_left rows inner f g rfl p, hfilter, gather_anti]
  have hif : ∀ row, (if partners f g inner row = [] then [row] else []) =
      if decide (partners f g inner row = []) then [row] else [] := by
    intro row
    by_cases h : partners f g inner row = [] <;> simp [h]
  simp only [hif, flatMap_if, List.filter_filter]
  refine List.filter_congr fun row _ => ?_
  rw [Bool.and_comm, Bool.decide_and, Bool.decide_eq_true]

end Taken

/-! ### Groups -/

/-- The rows of the inner table with the key of an outer row. -/
theorem mem_group {c : Correlation} (hop : c.op = .eq) {ty : LogicalType} {inner : List Cells}
    {key : Option ScalarValue} (hkey : ∀ v, key = some v → v.logicalType = ty) {r : Cells} :
    r ∈ group c ty inner key ↔ r ∈ inner ∧
      ∃ v, key = some v ∧ value ty c.innerColumn r = some v := by
  rw [group, List.mem_filter, decide_eq_true_iff, hop]
  refine and_congr_right fun _ => ?_
  cases key with
  | none => cases value ty c.innerColumn r <;> simp [strict, truth]
  | some v =>
    rw [truth_compare_eq (hkey v rfl)]
    simp [eq_comm]

theorem mem_trackGroups {key member : Vector} {n : ℕ} {k : Bytes} :
    (k ∈ (trackGroups key member n).nonempty ↔
        ∃ j < n, ∃ sk, key.get j = some sk ∧ sk.encode = k) ∧
      (k ∈ (trackGroups key member n).nullMember ↔
        ∃ j < n, ∃ sk, key.get j = some sk ∧ sk.encode = k ∧ member.get j = none) := by
  -- over any part of the rows, from any keys on
  suffices h : ∀ (l : List ℕ) (groups : GroupKeys),
      (k ∈ (l.foldl (fun groups j => match key.get j with
        | none => groups
        | some sk => ⟨insert sk.encode groups.nonempty, if (member.get j).isNone then
            insert sk.encode groups.nullMember else groups.nullMember⟩) groups).nonempty ↔
        k ∈ groups.nonempty ∨ ∃ j ∈ l, ∃ sk, key.get j = some sk ∧ sk.encode = k) ∧
      (k ∈ (l.foldl (fun groups j => match key.get j with
        | none => groups
        | some sk => ⟨insert sk.encode groups.nonempty, if (member.get j).isNone then
            insert sk.encode groups.nullMember else groups.nullMember⟩) groups).nullMember ↔
        k ∈ groups.nullMember ∨
          ∃ j ∈ l, ∃ sk, key.get j = some sk ∧ sk.encode = k ∧ member.get j = none) by
    obtain ⟨h₁, h₂⟩ := h (List.range n) ⟨∅, ∅⟩
    rw [trackGroups, h₁, h₂]
    simp
  intro l
  induction l with
  | nil => simp
  | cons j l ih =>
    intro groups
    rw [List.foldl_cons]
    obtain ⟨h₁, h₂⟩ := ih _
    rw [h₁, h₂]
    cases hk : key.get j with
    | none => simp [hk]
    | some sk =>
      cases hm : member.get j with
      | none => simp [hk, hm, eq_comm, or_assoc, or_left_comm]
      | some m => simp [hk, hm, eq_comm, or_assoc, or_left_comm]

theorem exists_lt_iff {rows : List Cells} {p : ℕ → Prop} {p' : Cells → Prop}
    (h : ∀ j row, rows[j]? = some row → (p j ↔ p' row)) :
    (∃ j < rows.length, p j) ↔ ∃ row ∈ rows, p' row := by
  constructor
  · rintro ⟨j, hj, hp⟩
    exact ⟨rows[j], List.getElem_mem hj, (h j _ (List.getElem?_eq_getElem hj)).1 hp⟩
  · rintro ⟨row, hrow, hp⟩
    obtain ⟨j, hj, rfl⟩ := List.getElem_of_mem hrow
    exact ⟨j, hj, (h j _ (List.getElem?_eq_getElem hj)).2 hp⟩

/-- **What is dropped behind the anti join**: the rows of a group that is not empty, if the tested
value or a member of the group is `NULL`. -/
theorem drops_iff {keyTy memberTy : LogicalType} {i j : ℕ} {inner : List Cells}
    {key x : Option ScalarValue}
    (hkey : ∀ v, key = some v → v.Fits ∧ v.logicalType = keyTy) :
    (trackGroups (columnVector keyTy i inner) (columnVector memberTy j inner) inner.length).drops
        key x = true ↔
      ∃ v, key = some v ∧ ∃ r ∈ inner, value keyTy i r = some v ∧
        (x = none ∨ ∃ r ∈ inner, value keyTy i r = some v ∧ value memberTy j r = none) := by
  cases key with
  | none => simp [GroupKeys.drops]
  | some tk =>
    obtain ⟨hfits, hty⟩ := hkey tk rfl
    have henc : ∀ {r : Cells} {sk : ScalarValue}, value keyTy i r = some sk →
        (sk.encode = tk.encode ↔ sk = tk) := fun hr =>
      ⟨ScalarValue.encode_inj (fits_value hr) hfits ((logicalType_value hr).trans hty.symm),
        fun h => by rw [h]⟩
    have hnonempty : tk.encode ∈ (trackGroups (columnVector keyTy i inner)
        (columnVector memberTy j inner) inner.length).nonempty ↔
          ∃ r ∈ inner, value keyTy i r = some tk := by
      rw [mem_trackGroups.1]
      refine exists_lt_iff fun l r hr => ?_
      rw [get_columnVector hr]
      constructor
      · rintro ⟨sk, hsk, he⟩
        rwa [← (henc hsk).1 he]
      · exact fun h => ⟨tk, h, rfl⟩
    have hnull : tk.encode ∈ (trackGroups (columnVector keyTy i inner)
        (columnVector memberTy j inner) inner.length).nullMember ↔
          ∃ r ∈ inner, value keyTy i r = some tk ∧ value memberTy j r = none := by
      rw [mem_trackGroups.2]
      refine exists_lt_iff fun l r hr => ?_
      rw [get_columnVector hr, get_columnVector hr]
      constructor
      · rintro ⟨sk, hsk, he, hm⟩
        exact ⟨(henc hsk).1 he ▸ hsk, hm⟩
      · exact fun h => ⟨tk, h.1, rfl, h.2⟩
    rw [GroupKeys.drops, Bool.and_eq_true, Bool.or_eq_true, decide_eq_true_iff, decide_eq_true_iff,
      hnonempty, hnull, Option.isNone_iff_eq_none]
    constructor
    · rintro ⟨⟨r, hr, hv⟩, h⟩
      exact ⟨tk, rfl, r, hr, hv, h⟩
    · rintro ⟨v, hv, r, hr, hval, h⟩
      cases hv
      exact ⟨⟨r, hr, hval⟩, h⟩

/-! ### The joins -/

/-- An unfiltered run returns the rows of the table, projected. -/
theorem PlainScan.run_none_ok {q : PlainScan} {result : SelectResult}
    (h : q.run none = .ok result) :
    ∃ inner, q.rows = .ok inner ∧ (∃ out, q.project inner = .ok out) ∧
      result.rows = inner.map q.projectRow := by
  obtain ⟨inner, hrows, h⟩ := exists_of_bind_ok h
  have hbind : (do
      let out ← q.project inner
      .ok ⟨q.outputItems.map (ProjectionItem.type q.schema), out⟩ :
        Except EngineError SelectResult) = .ok result := h
  obtain ⟨out, hout, hresult⟩ := exists_of_bind_ok hbind
  cases hresult
  refine ⟨inner, hrows, ⟨out, hout⟩, ?_⟩
  rw [project_ok hout fun row hrow => hrow] at hout
  exact (Except.ok.inj hout).symm

theorem PlainScan.run_none_of {q : PlainScan} {inner out : List Cells} (hrows : q.rows = .ok inner)
    (hout : q.project inner = .ok out) : ∃ result, q.run none = .ok result ∧
      result.rows = inner.map q.projectRow := by
  have hproject := project_ok hout fun row hrow => hrow
  refine ⟨⟨q.outputItems.map (ProjectionItem.type q.schema), inner.map q.projectRow⟩, ?_, rfl⟩
  simp only [run, hrows, filterRows, FilterPlan.filterRows, bind, Except.bind, Option.elim_none]
  rw [hproject]

namespace BoundSubqueryFilter

/-- The select list that the binder gives a subquery over a plain scan: `*` for an `EXISTS`, and for
an `IN` with an equality the member and then the correlation key. -/
structure Layout (sub : BoundSubqueryFilter) (q : PlainScan) : Prop where
  existence : ∀ negated, sub.kind = .existence negated → q.projection = .all
  inSet : ∀ column negated, sub.kind = .inSet column negated → sub.correlation.op = .eq →
    ∃ item, q.projection = .items [item, .column sub.correlation.innerColumn]

variable {sub : BoundSubqueryFilter} {q : PlainScan} {schema addressable : List LogicalType}
  {rows inner : List Cells}

/-- A column of the inner table is read from the rows that the inner query returns. -/
theorem reads_map_iff {ty : LogicalType} {i j : ℕ} {f : Cells → Cells}
    (h : ∀ row, cell j (f row) = cell i row) :
    ReadsColumn ty j (inner.map f) ↔ ReadsColumn ty i inner := by
  simp only [ReadsColumn, List.forall_mem_map, value, h]

theorem value_map {ty : LogicalType} {i j : ℕ} {f : Cells → Cells}
    (h : ∀ row, cell j (f row) = cell i row) (row : Cells) :
    value ty j (f row) = value ty i row := by
  rw [value, value, h]

theorem cell_projectRow_all (hall : q.projection = .all) {i : ℕ} {ty : LogicalType}
    (hi : q.schema[i]? = some ty) (row : Cells) : cell i (q.projectRow row) = cell i row := by
  have hlt := (List.getElem?_eq_some_iff.1 hi).1
  simp [PlainScan.projectRow, PlainScan.outputItems, hall, Projection.toItems, cell, hlt,
    ProjectionItem.cellOf]

theorem cell_projectRow_key {item : ProjectionItem} {i : ℕ}
    (hitems : q.projection = .items [item, .column i]) (row : Cells) :
    cell 1 (q.projectRow row) = cell i row := by
  simp [PlainScan.projectRow, PlainScan.outputItems, hitems, Projection.toItems, cell,
    ProjectionItem.cellOf]

/-- The rows related to an outer row are those with its key. -/
theorem mem_related (schema : List LogicalType) (inner : List Cells)
    (hop : sub.correlation.op = .eq) (row r : Cells) :
    r ∈ group sub.correlation (sub.keyTy schema) inner (sub.outerKey schema row) ↔
      r ∈ inner ∧ ∃ v, sub.outerKey schema row = some v ∧
        value (sub.keyTy schema) sub.correlation.innerColumn r = some v :=
  mem_group hop fun _ hv => logicalType_value hv

/-- The partners of an outer row by its key are the rows of its group. -/
theorem partners_key_eq_nil (hop : sub.correlation.op = .eq) {kpos : ℕ}
    (hkpos : ∀ row, cell kpos (q.projectRow row) = cell sub.correlation.innerColumn row)
    (row : Cells) :
    partners (keyCell (sub.keyTy schema) sub.correlation.outerColumn)
        (keyCell (sub.keyTy schema) kpos) (inner.map q.projectRow) row = [] ↔
      sub.members q schema inner row = [] := by
  have hgroup := mem_related schema inner hop row
  rw [members, List.map_eq_nil_iff, List.eq_nil_iff_forall_not_mem, List.eq_nil_iff_forall_not_mem]
  simp only [hgroup, mem_partners]
  constructor
  · rintro h r ⟨hr, v, hv, hval⟩
    refine h (q.projectRow r) ⟨List.mem_map_of_mem hr, encodeScalar v, ?_, ?_⟩
    · rw [keyCell, ← outerKey, hv, Option.map_some]
    · rw [keyCell, value_map hkpos, hval, Option.map_some]
  · rintro h _ ⟨hmem, k, hk, hval⟩
    obtain ⟨r, hr, rfl⟩ := List.mem_map.1 hmem
    obtain ⟨v, hv, rfl⟩ := Option.map_eq_some_iff.1 hk
    obtain ⟨w, hw, he⟩ := Option.map_eq_some_iff.1 hval
    rw [value_map hkpos] at hw
    obtain rfl := eq_of_encode hw hv he
    exact h r ⟨hr, w, hv, hw⟩

/-- The pair of an outer row has a partner if the tested value is among the members of its group. -/
theorem partners_pair_ne_nil (schema : List LogicalType) (inner : List Cells)
    (hop : sub.correlation.op = .eq)
    (hkpos : ∀ row, cell 1 (q.projectRow row) = cell sub.correlation.innerColumn row)
    (hm : InMemory rows) (hm' : InMemory (inner.map q.projectRow)) {row : Cells}
    (hrow : row ∈ rows) :
    partners (pairCell (sub.keyTy schema, sub.correlation.outerColumn)
        (sub.memberTy schema, sub.kind.column.getD 0))
        (pairCell (sub.keyTy schema, 1) (sub.memberTy schema, 0))
        (inner.map q.projectRow) row ≠ [] ↔
      in3 (sub.tested schema row) (sub.members q schema inner row) = some true := by
  have hgroup := mem_related schema inner hop row
  have hne : ∀ l : List Cells, l ≠ [] ↔ ∃ r, r ∈ l := fun l =>
    ⟨List.exists_mem_of_ne_nil l, fun ⟨_, hr⟩ => List.ne_nil_of_mem hr⟩
  rw [in3_eq_true, hne]
  simp only [mem_partners, members, List.mem_map, hgroup]
  constructor
  · rintro ⟨r, ⟨r, hr, rfl⟩, k, hk, hk'⟩
    obtain ⟨a, b, ha, hb, ha', hb', -⟩ := (pairCell_eq hm hm' hrow (List.mem_map_of_mem hr)).1
      ⟨hk, hk'⟩
    rw [value_map hkpos] at ha'
    exact ⟨b, hb, r, ⟨hr, a, ha, ha'⟩, hb'⟩
  · rintro ⟨b, hb, r, ⟨hr, a, ha, ha'⟩, hb'⟩
    rw [← value_map hkpos] at ha'
    obtain ⟨hk, hk'⟩ := (pairCell_eq hm hm' hrow (List.mem_map_of_mem hr)).2
      ⟨a, b, ha, hb, ha', hb', rfl⟩
    exact ⟨q.projectRow r, ⟨r, hr, rfl⟩, _, hk, hk'⟩

/-- **`[NOT] EXISTS` by a join** keeps the rows for which it is true. -/
theorem semiAnti_ok (h : sub.Typed q schema addressable) (hop : sub.correlation.op = .eq)
    (hall : q.projection = .all) {negated : Bool} (hkind : sub.kind = .existence negated)
    {kept : List Cells} : sub.filterSemiAntiDecorrelated ⟨if negated then .anti else .semi,
      sub.correlation.outerColumn, sub.correlation.innerColumn⟩ schema rows = .ok kept ↔
    ∃ inner, q.rows = .ok inner ∧ sub.Readable q schema rows inner ∧
      kept = rows.filter fun row => sub.meaning q schema inner row = some true := by
  have hkpos := cell_projectRow_all hall h.inner_key
  -- the rows that the join takes
  have htaken : ∀ inner : List Cells,
      takeRows (hashJoin (if negated then .anti else .semi)
        (rows.map (keyCell (sub.keyTy schema) sub.correlation.outerColumn))
        ((inner.map q.projectRow).map
          (keyCell (sub.keyTy schema) sub.correlation.innerColumn))).left rows =
        rows.filter fun row => sub.meaning q schema inner row = some true := by
    intro inner
    cases negated with
    | false =>
      rw [if_neg (by simp), taken_semi]
      refine List.filter_congr fun row _ => decide_eq_decide.2 ?_
      rw [ne_eq, partners_key_eq_nil hop hkpos, meaning, hkind]
      simp
    | true =>
      have htrue := taken_anti rows (inner.map q.projectRow)
        (keyCell (sub.keyTy schema) sub.correlation.outerColumn)
        (keyCell (sub.keyTy schema) sub.correlation.innerColumn) (fun _ => true)
        (fun _ => true) fun _ _ _ => rfl
      rw [List.filter_true] at htrue
      rw [if_pos rfl, htrue]
      refine List.filter_congr fun row _ => decide_eq_decide.2 ?_
      rw [partners_key_eq_nil hop hkpos, meaning, hkind]
      simp
  have hjoin : ∀ inner : List Cells,
      joinKeys (if negated then .anti else .semi)
        (columnVector (sub.keyTy schema) sub.correlation.outerColumn rows) rows.length
        (columnVector (sub.keyTy schema) sub.correlation.innerColumn (inner.map q.projectRow))
        (inner.map q.projectRow).length =
      .ok (hashJoin (if negated then .anti else .semi)
        (rows.map (keyCell (sub.keyTy schema) sub.correlation.outerColumn))
        ((inner.map q.projectRow).map
          (keyCell (sub.keyTy schema) sub.correlation.innerColumn))) := fun inner =>
    joinKeys_eq _ (len_columnVector ..) (len_columnVector ..)
      (fun _ _ => keyCell_columnVector) fun _ _ => keyCell_columnVector
  have hcolumn : sub.kind.column = none := by rw [hkind]; rfl
  constructor
  · intro hok
    obtain ⟨result, hrun, hok⟩ := exists_of_bind_ok hok
    obtain ⟨outerKeys, houter, hok⟩ := exists_of_bind_ok hok
    obtain ⟨innerKeys, hinner, hok⟩ := exists_of_bind_ok hok
    obtain ⟨indices, hindices, hok⟩ := exists_of_bind_ok hok
    cases hok
    rw [h.plain] at hrun
    obtain ⟨inner, hrows, hproject, hresult⟩ := PlainScan.run_none_ok hrun
    obtain ⟨hreads, rfl⟩ := keyVector_eq_ok.1 (mapError_eq_ok.1 houter)
    obtain ⟨hreads', rfl⟩ := keyVector_eq_ok.1 (mapError_eq_ok.1 hinner)
    rw [hresult] at hindices hreads'
    have hindices := (hjoin inner).symm.trans hindices
    refine ⟨inner, hrows, ⟨hproject, hreads, (reads_map_iff hkpos).1 hreads', ?_⟩, ?_⟩
    · intro column hc
      rw [hcolumn] at hc
      cases hc
    · rw [← htaken, Except.ok.inj hindices]
  · rintro ⟨inner, hrows, hread, rfl⟩
    obtain ⟨out, hout⟩ := hread.project
    obtain ⟨result, hrun, hresult⟩ := PlainScan.run_none_of hrows hout
    have hinner := (reads_map_iff hkpos).2 hread.inner_key
    rw [← hresult] at hinner
    have hkeys := keyVector_eq_ok.2 ⟨hread.outer_key, rfl⟩
    have hkeys' := keyVector_eq_ok.2 ⟨hinner, rfl⟩
    rw [keyTy] at hkeys hkeys'
    simp only [filterSemiAntiDecorrelated, h.plain, BoundSelect.runSelect, hrun, hkeys, hkeys',
      Except.mapError, bind, Except.bind]
    rw [hresult, ← keyTy, hjoin, ← htaken inner]

/-- `NOT IN` is true if no member is found, unless it is `UNKNOWN`: over a group that is not empty,
the tested value or a member is `NULL`. -/
theorem in3_eq_false_iff {x : Option ScalarValue} {members : List (Option ScalarValue)} :
    in3 x members = some false ↔
      ¬in3 x members = some true ∧ ¬(members ≠ [] ∧ (x = none ∨ none ∈ members)) := by
  rw [in3_eq_false, in3_eq_true]
  constructor
  · intro h
    refine ⟨?_, ?_⟩
    · rintro ⟨a, hx, ha⟩
      obtain ⟨a', b, hx', hb, hne⟩ := h _ ha
      rw [hx] at hx'
      cases hx'
      cases hb
      exact hne rfl
    · rintro ⟨hne, hnull⟩
      obtain ⟨m, hm⟩ := List.exists_mem_of_ne_nil _ hne
      obtain ⟨a, -, hx, -, -⟩ := h m hm
      rcases hnull with hnone | hnone
      · rw [hx] at hnone
        cases hnone
      · obtain ⟨-, b, -, hb, -⟩ := h _ hnone
        cases hb
  · rintro ⟨hmiss, hnull⟩ m hm
    have hne : members ≠ [] := List.ne_nil_of_mem hm
    cases hx : x with
    | none => exact absurd ⟨hne, .inl hx⟩ hnull
    | some a =>
      cases hb : m with
      | none => exact absurd ⟨hne, .inr (hb ▸ hm)⟩ hnull
      | some b =>
        refine ⟨a, b, rfl, rfl, ?_⟩
        rintro rfl
        exact hmiss ⟨a, hx, hb ▸ hm⟩

theorem meaning_inSet {column : ℕ} {negated : Bool} (hkind : sub.kind = .inSet column negated)
    (row : Cells) : sub.meaning q schema inner row =
      (in3 (sub.tested schema row) (sub.members q schema inner row)).map (· ^^ negated) := by
  rw [meaning, hkind]

/-- What is dropped behind the anti join, by the members of the group. -/
theorem drops_members (hop : sub.correlation.op = .eq)
    (hkpos : ∀ row, cell 1 (q.projectRow row) = cell sub.correlation.innerColumn row)
    (row : Cells) :
    (trackGroups (columnVector (sub.keyTy schema) 1 (inner.map q.projectRow))
      (columnVector (sub.memberTy schema) 0 (inner.map q.projectRow))
      (inner.map q.projectRow).length).drops (sub.outerKey schema row) (sub.tested schema row) =
        true ↔
      sub.members q schema inner row ≠ [] ∧
        (sub.tested schema row = none ∨ none ∈ sub.members q schema inner row) := by
  have hgroup := mem_related schema inner hop row
  have hnull : none ∈ sub.members q schema inner row ↔
      ∃ v, sub.outerKey schema row = some v ∧ ∃ r ∈ inner.map q.projectRow,
        value (sub.keyTy schema) 1 r = some v ∧ value (sub.memberTy schema) 0 r = none := by
    simp only [members, List.mem_map, hgroup, value_map hkpos, exists_exists_and_eq_and]
    constructor
    · rintro ⟨r, ⟨hr, v, hv, hval⟩, hnone⟩
      exact ⟨v, hv, r, hr, hval, hnone⟩
    · rintro ⟨v, hv, r, hr, hval, hnone⟩
      exact ⟨r, ⟨hr, v, hv, hval⟩, hnone⟩
  have hne : sub.members q schema inner row ≠ [] ↔
      ∃ v, sub.outerKey schema row = some v ∧ ∃ r ∈ inner.map q.projectRow,
        value (sub.keyTy schema) 1 r = some v := by
    rw [members, ne_eq, List.map_eq_nil_iff]
    simp only [List.mem_map, value_map hkpos, exists_exists_and_eq_and]
    constructor
    · intro h
      obtain ⟨r, hr⟩ := List.exists_mem_of_ne_nil _ h
      obtain ⟨hr, v, hv, hval⟩ := (hgroup r).1 hr
      exact ⟨v, hv, r, hr, hval⟩
    · rintro ⟨v, hv, r, hr, hval⟩
      exact List.ne_nil_of_mem ((hgroup r).2 ⟨hr, v, hv, hval⟩)
  have hkey : ∀ v, sub.outerKey schema row = some v → v.Fits ∧ v.logicalType = sub.keyTy schema :=
    fun v hv => ⟨fits_value hv, logicalType_value hv⟩
  rw [drops_iff hkey, hne, hnull]
  constructor
  · rintro ⟨v, hv, r, hr, hval, h⟩
    exact ⟨⟨v, hv, r, hr, hval⟩, h.imp_right fun h => ⟨v, hv, h⟩⟩
  · rintro ⟨⟨v, hv, r, hr, hval⟩, h⟩
    refine ⟨v, hv, r, hr, hval, h.imp_right ?_⟩
    rintro ⟨w, hw, hex⟩
    rw [hv] at hw
    cases hw
    exact hex

section Composite

variable {column : ℕ} {negated : Bool} {item : ProjectionItem}

/-- The pair of an outer row. -/
def outerPair (sub : BoundSubqueryFilter) (schema : List LogicalType) (column : ℕ) :
    Cells → Option Bytes :=
  pairCell (sub.keyTy schema, sub.correlation.outerColumn) (sub.memberTy schema, column)

/-- The pair of an inner row. -/
def innerPair (sub : BoundSubqueryFilter) (schema : List LogicalType) : Cells → Option Bytes :=
  pairCell (sub.keyTy schema, 1) (sub.memberTy schema, 0)

theorem joinKeys_pairs (t : JoinType) (rows inner : List Cells) :
    joinKeys t ⟨.bytea, rows.map (outerPair sub schema column)⟩ rows.length
        ⟨.bytea, inner.map (innerPair sub schema)⟩ inner.length =
      .ok (hashJoin t (rows.map (outerPair sub schema column))
        (inner.map (innerPair sub schema))) :=
  joinKeys_eq t (List.length_map _) (List.length_map _) (fun _ _ => pairCell_vector)
    fun _ _ => pairCell_vector

/-- The vectors of the pairs are there if both columns of both sides can be read. -/
theorem pairVectors_eq_ok (hcol : sub.kind.column = some column) {rows : List Cells} {v : Vector} :
    (compositeKeyVector rows (sub.correlation.outerColumn, sub.keyTy schema)
        (column, sub.memberTy schema) = .ok v ↔
      (ReadsColumn (sub.keyTy schema) sub.correlation.outerColumn rows ∧
        ∀ c ∈ sub.kind.column, ReadsColumn (sub.memberTy schema) c rows) ∧
        v = ⟨.bytea, rows.map (outerPair sub schema column)⟩) := by
  rw [compositeKeyVector_eq_ok, hcol]
  simp [outerPair]

/-- What both joins on pairs read. -/
theorem readable_of_pairs (hcol : sub.kind.column = some column)
    (hkpos : ∀ row, cell 1 (q.projectRow row) = cell sub.correlation.innerColumn row)
    (hproject : ∃ out, q.project inner = .ok out) {v w : Vector}
    (hv : compositeKeyVector rows (sub.correlation.outerColumn, sub.keyTy schema)
      (column, sub.memberTy schema) = .ok v)
    (hw : compositeKeyVector (inner.map q.projectRow) (1, sub.keyTy schema)
      (0, sub.memberTy schema) = .ok w) :
    sub.Readable q schema rows inner ∧
      v = ⟨.bytea, rows.map (outerPair sub schema column)⟩ ∧
      w = ⟨.bytea, (inner.map q.projectRow).map (innerPair sub schema)⟩ := by
  obtain ⟨⟨hkey, hmember⟩, rfl⟩ := (pairVectors_eq_ok hcol).1 hv
  obtain ⟨⟨hkey', hmember'⟩, rfl⟩ := compositeKeyVector_eq_ok.1 hw
  exact ⟨⟨hproject, hkey, (reads_map_iff hkpos).1 hkey', fun c hc => ⟨hmember c hc, hmember'⟩⟩,
    rfl, rfl⟩

theorem pairs_of_readable (hcol : sub.kind.column = some column)
    (hkpos : ∀ row, cell 1 (q.projectRow row) = cell sub.correlation.innerColumn row)
    (hread : sub.Readable q schema rows inner) :
    compositeKeyVector rows (sub.correlation.outerColumn, sub.keyTy schema)
        (column, sub.memberTy schema) = .ok ⟨.bytea, rows.map (outerPair sub schema column)⟩ ∧
      compositeKeyVector (inner.map q.projectRow) (1, sub.keyTy schema) (0, sub.memberTy schema) =
        .ok ⟨.bytea, (inner.map q.projectRow).map (innerPair sub schema)⟩ := by
  have hmember := hread.member column hcol
  refine ⟨(pairVectors_eq_ok hcol).2 ⟨⟨hread.outer_key, fun c hc => (hread.member c hc).1⟩, rfl⟩,
    compositeKeyVector_eq_ok.2 ⟨⟨(reads_map_iff hkpos).2 hread.inner_key, hmember.2⟩, rfl⟩⟩

/-- **`IN` by a join** keeps the rows for which it is true. -/
theorem compositeSemi_ok (h : sub.Typed q schema addressable) (hop : sub.correlation.op = .eq)
    (hitems : q.projection = .items [item, .column sub.correlation.innerColumn])
    (hkind : sub.kind = .inSet column false) (hm : InMemory rows)
    (hm' : ∀ inner, q.rows = .ok inner → InMemory (inner.map q.projectRow)) {kept : List Cells} :
    sub.filterCompositeSemiDecorrelated ⟨sub.correlation.outerColumn, column, 1, 0⟩ schema rows =
      .ok kept ↔
    ∃ inner, q.rows = .ok inner ∧ sub.Readable q schema rows inner ∧
      kept = rows.filter fun row => sub.meaning q schema inner row = some true := by
  have hkpos := cell_projectRow_key hitems
  have hcol : sub.kind.column = some column := by rw [hkind]; rfl
  have hty : schema.getD column .bool = sub.memberTy schema := by
    rw [memberTy, hcol, Option.getD_some]
  have htaken : ∀ inner, q.rows = .ok inner →
      takeRows (hashJoin .semi (rows.map (outerPair sub schema column))
        ((inner.map q.projectRow).map (innerPair sub schema))).left rows =
        rows.filter fun row => sub.meaning q schema inner row = some true := by
    intro inner hrows
    rw [taken_semi]
    refine List.filter_congr fun row hrow => decide_eq_decide.2 ?_
    have hpartners := partners_pair_ne_nil schema inner hop hkpos hm (hm' inner hrows)
      hrow
    rw [hcol, Option.getD_some] at hpartners
    rw [outerPair, innerPair, hpartners, meaning_inSet hkind]
    cases in3 (sub.tested schema row) (sub.members q schema inner row) <;> simp
  constructor
  · intro hok
    obtain ⟨result, hrun, hok⟩ := exists_of_bind_ok hok
    obtain ⟨outerKeys, houter, hok⟩ := exists_of_bind_ok hok
    obtain ⟨innerKeys, hinner, hok⟩ := exists_of_bind_ok hok
    obtain ⟨indices, hindices, hok⟩ := exists_of_bind_ok hok
    cases hok
    rw [h.plain] at hrun
    obtain ⟨inner, hrows, hproject, hresult⟩ := PlainScan.run_none_ok hrun
    rw [hty, hresult] at hinner
    rw [hty] at houter
    obtain ⟨hread, rfl, rfl⟩ := readable_of_pairs hcol hkpos hproject (mapError_eq_ok.1 houter)
      (mapError_eq_ok.1 hinner)
    rw [hresult] at hindices
    have hindices := (joinKeys_pairs ..).symm.trans hindices
    exact ⟨inner, hrows, hread, by rw [← htaken inner hrows, Except.ok.inj hindices]⟩
  · rintro ⟨inner, hrows, hread, rfl⟩
    obtain ⟨out, hout⟩ := hread.project
    obtain ⟨result, hrun, hresult⟩ := PlainScan.run_none_of hrows hout
    obtain ⟨hkeys, hkeys'⟩ := pairs_of_readable hcol hkpos hread
    rw [← hresult] at hkeys'
    rw [keyTy] at hkeys hkeys'
    simp only [filterCompositeSemiDecorrelated, h.plain, BoundSelect.runSelect, hrun, hty, hkeys,
      hkeys', Except.mapError, bind, Except.bind]
    rw [hresult, joinKeys_pairs, ← htaken inner hrows]

/-- **`NOT IN` by a join** keeps the rows for which it is true: it is false for the rows that the
join leaves out, and `UNKNOWN` for the rows dropped behind it. -/
theorem compositeAnti_ok (h : sub.Typed q schema addressable) (hop : sub.correlation.op = .eq)
    (hitems : q.projection = .items [item, .column sub.correlation.innerColumn])
    (hkind : sub.kind = .inSet column true) (hm : InMemory rows)
    (hm' : ∀ inner, q.rows = .ok inner → InMemory (inner.map q.projectRow)) {kept : List Cells} :
    sub.filterCompositeAntiDecorrelated ⟨sub.correlation.outerColumn, column, 1, 0⟩ schema rows =
      .ok kept ↔
    ∃ inner, q.rows = .ok inner ∧ sub.Readable q schema rows inner ∧
      kept = rows.filter fun row => sub.meaning q schema inner row = some true := by
  have hkpos := cell_projectRow_key hitems
  have hcol : sub.kind.column = some column := by rw [hkind]; rfl
  have hty : schema.getD column .bool = sub.memberTy schema := by
    rw [memberTy, hcol, Option.getD_some]
  have htaken : ∀ inner, q.rows = .ok inner →
      takeRows ((hashJoin .anti (rows.map (outerPair sub schema column))
        ((inner.map q.projectRow).map (innerPair sub schema))).left.filter fun l =>
          !(trackGroups (columnVector (sub.keyTy schema) 1 (inner.map q.projectRow))
            (columnVector (sub.memberTy schema) 0 (inner.map q.projectRow))
            (inner.map q.projectRow).length).drops
              ((columnVector (sub.keyTy schema) sub.correlation.outerColumn rows).get l)
              ((columnVector (sub.memberTy schema) column rows).get l)) rows =
        rows.filter fun row => sub.meaning q schema inner row = some true := by
    intro inner hrows
    rw [taken_anti rows (inner.map q.projectRow) _ _ _ (fun row =>
      !(trackGroups (columnVector (sub.keyTy schema) 1 (inner.map q.projectRow))
        (columnVector (sub.memberTy schema) 0 (inner.map q.projectRow))
        (inner.map q.projectRow).length).drops (sub.outerKey schema row) (sub.tested schema row))
      fun l row hrow => by
        rw [get_columnVector hrow, get_columnVector hrow, tested, hcol, Option.getD_some]
        rfl]
    refine List.filter_congr fun row hrow => decide_eq_decide.2 ?_
    have hpartners := partners_pair_ne_nil schema inner hop hkpos hm (hm' inner hrows)
      hrow
    rw [hcol, Option.getD_some] at hpartners
    have hnil : partners (outerPair sub schema column) (innerPair sub schema)
        (inner.map q.projectRow) row = [] ↔
          ¬in3 (sub.tested schema row) (sub.members q schema inner row) = some true :=
      not_ne_iff.symm.trans (not_congr hpartners)
    have hnot : ∀ x : Option Bool, x.map (· ^^ true) = some true ↔ x = some false := by
      intro x
      rcases x with _ | _ | _ <;> simp
    rw [meaning_inSet hkind, hnot, in3_eq_false_iff, hnil, Bool.not_eq_true',
      ← Bool.not_eq_true, drops_members hop hkpos]
  constructor
  · intro hok
    obtain ⟨result, hrun, hok⟩ := exists_of_bind_ok hok
    obtain ⟨outerKeys, houter, hok⟩ := exists_of_bind_ok hok
    obtain ⟨innerKeys, hinner, hok⟩ := exists_of_bind_ok hok
    obtain ⟨indices, hindices, hok⟩ := exists_of_bind_ok hok
    obtain ⟨innerKeyCol, hik, hok⟩ := exists_of_bind_ok hok
    obtain ⟨innerMemberCol, him, hok⟩ := exists_of_bind_ok hok
    obtain ⟨outerKeyCol, hok', hok⟩ := exists_of_bind_ok hok
    obtain ⟨outerMemberCol, hom, hok⟩ := exists_of_bind_ok hok
    cases hok
    rw [h.plain] at hrun
    obtain ⟨inner, hrows, hproject, hresult⟩ := PlainScan.run_none_ok hrun
    rw [hty, hresult] at hinner
    rw [hty] at houter
    obtain ⟨hread, rfl, rfl⟩ := readable_of_pairs hcol hkpos hproject (mapError_eq_ok.1 houter)
      (mapError_eq_ok.1 hinner)
    rw [hresult] at hindices
    have hindices := (joinKeys_pairs ..).symm.trans hindices
    obtain ⟨-, rfl⟩ := keyVector_eq_ok.1 (mapError_eq_ok.1 hik)
    obtain ⟨-, rfl⟩ := keyVector_eq_ok.1 (mapError_eq_ok.1 him)
    obtain ⟨-, rfl⟩ := keyVector_eq_ok.1 (mapError_eq_ok.1 hok')
    obtain ⟨-, rfl⟩ := keyVector_eq_ok.1 (mapError_eq_ok.1 hom)
    refine ⟨inner, hrows, hread, ?_⟩
    rw [← htaken inner hrows, ← Except.ok.inj hindices, hty, hresult, keyTy]
  · rintro ⟨inner, hrows, hread, rfl⟩
    obtain ⟨out, hout⟩ := hread.project
    obtain ⟨result, hrun, hresult⟩ := PlainScan.run_none_of hrows hout
    obtain ⟨hkeys, hkeys'⟩ := pairs_of_readable hcol hkpos hread
    obtain ⟨hmember, hmember'⟩ := hread.member column hcol
    have hik := keyVector_eq_ok.2 ⟨(reads_map_iff hkpos).2 hread.inner_key, rfl⟩
    have him := keyVector_eq_ok.2 ⟨hmember', rfl⟩
    have hok := keyVector_eq_ok.2 ⟨hread.outer_key, rfl⟩
    have hom := keyVector_eq_ok.2 ⟨hmember, rfl⟩
    rw [← hresult] at hkeys' hik him
    rw [keyTy] at hkeys hkeys' hik hok
    simp only [filterCompositeAntiDecorrelated, h.plain, BoundSelect.runSelect, hrun, hty, hkeys,
      hkeys', hik, him, hok, hom, Except.mapError, bind, Except.bind]
    rw [hresult, joinKeys_pairs]
    simp only [← htaken inner hrows, keyTy]

end Composite

/-! ### The dispatch -/

theorem isPlainScan_iff {subquery : BoundSelect} :
    subquery.isPlainScan = true ↔ ∃ q, subquery = .plain q := by
  cases subquery <;> simp [BoundSelect.isPlainScan]

theorem semiAntiDecorrelation_eq_some {plan : SemiAntiDecorrelation}
    (h : sub.semiAntiDecorrelation = some plan) : sub.correlation.op = .eq ∧
      ∃ negated q, sub.kind = .existence negated ∧ sub.subquery = .plain q ∧
        plan = ⟨if negated then .anti else .semi, sub.correlation.outerColumn,
          sub.correlation.innerColumn⟩ := by
  rw [semiAntiDecorrelation] at h
  by_cases hop : sub.correlation.op = .eq
  · rw [if_neg (not_not.2 hop)] at h
    cases hk : sub.kind with
    | scalar column op left => simp [hk] at h
    | inSet column negated => simp [hk] at h
    | existence negated =>
      simp only [hk] at h
      by_cases hp : sub.subquery.isPlainScan = true
      · rw [hp, Bool.not_true, if_neg Bool.false_ne_true] at h
        obtain ⟨q, hq⟩ := isPlainScan_iff.1 hp
        exact ⟨hop, negated, q, rfl, hq, (Option.some.inj h).symm⟩
      · rw [eq_false_of_ne_true hp] at h
        cases h
  · rw [if_pos hop] at h
    cases h

theorem compositeKeyDecorrelation_eq_some {wantNegated : Bool} {plan : CompositeKeyDecorrelation}
    (h : sub.compositeKeyDecorrelation wantNegated = some plan) : sub.correlation.op = .eq ∧
      ∃ column q, sub.kind = .inSet column wantNegated ∧ sub.subquery = .plain q ∧
        plan = ⟨sub.correlation.outerColumn, column, 1, 0⟩ := by
  rw [compositeKeyDecorrelation] at h
  by_cases hop : sub.correlation.op = .eq
  · rw [if_neg (not_not.2 hop)] at h
    cases hk : sub.kind with
    | scalar column op left => simp [hk] at h
    | existence negated => simp [hk] at h
    | inSet column negated =>
      simp only [hk] at h
      by_cases hn : negated = wantNegated
      · subst hn
        by_cases hp : sub.subquery.isPlainScan = true
        · obtain ⟨q, hq⟩ := isPlainScan_iff.1 hp
          simp only [ne_eq, not_true_eq_false, if_false, hp, Bool.not_true, Bool.false_eq_true] at h
          by_cases ht : sub.subquery.hasTwoItems = true
          · rw [ht, Bool.not_true, if_neg Bool.false_ne_true] at h
            exact ⟨hop, column, q, rfl, hq, (Option.some.inj h).symm⟩
          · rw [eq_false_of_ne_true ht] at h
            cases h
        · rw [if_neg (not_not.2 rfl), eq_false_of_ne_true hp] at h
          cases h
      · rw [if_pos hn] at h
        cases h
  · rw [if_pos hop] at h
    cases h

/-- What the dispatch computes: the plain way, or a join that keeps the rows for which the subquery
is true, once each cell that has a part in it can be read. -/
theorem dispatch_cases (htyped : ∀ q, sub.subquery = .plain q → sub.Typed q schema addressable)
    (hlayout : ∀ q, sub.subquery = .plain q → sub.Layout q) (hm : InMemory rows)
    (hm' : ∀ q inner, sub.subquery = .plain q → q.rows = .ok inner →
      InMemory (inner.map q.projectRow)) :
    sub.filterCorrelatedSubquery schema addressable rows =
      sub.filterPerRow schema addressable rows ∨
      ∃ q, sub.subquery = .plain q ∧ (∀ column op left, sub.kind ≠ .scalar column op left) ∧
        ∀ kept, sub.filterCorrelatedSubquery schema addressable rows = .ok kept ↔
          ∃ inner, q.rows = .ok inner ∧ sub.Readable q schema rows inner ∧
            kept = rows.filter fun row => sub.meaning q schema inner row = some true := by
  rw [filterCorrelatedSubquery]
  cases hplan : sub.semiAntiDecorrelation with
  | some plan =>
    obtain ⟨hop, negated, q, hk, hq, rfl⟩ := semiAntiDecorrelation_eq_some hplan
    refine .inr ⟨q, hq, by simp [hk], fun kept => ?_⟩
    exact semiAnti_ok (htyped q hq) hop ((hlayout q hq).existence negated hk) hk
  | none =>
    cases hplan : sub.compositeKeyDecorrelation false with
    | some plan =>
      obtain ⟨hop, column, q, hk, hq, rfl⟩ := compositeKeyDecorrelation_eq_some hplan
      obtain ⟨item, hitems⟩ := (hlayout q hq).inSet column false hk hop
      refine .inr ⟨q, hq, by simp [hk], fun kept => ?_⟩
      exact compositeSemi_ok (htyped q hq) hop hitems hk hm fun inner => hm' q inner hq
    | none =>
      cases hplan : sub.compositeKeyDecorrelation true with
      | some plan =>
        obtain ⟨hop, column, q, hk, hq, rfl⟩ := compositeKeyDecorrelation_eq_some hplan
        obtain ⟨item, hitems⟩ := (hlayout q hq).inSet column true hk hop
        refine .inr ⟨q, hq, by simp [hk], fun kept => ?_⟩
        exact compositeAnti_ok (htyped q hq) hop hitems hk hm fun inner => hm' q inner hq
      | none => exact .inl rfl

/-- **A correlated subquery by a join agrees with a run for each row.** Whatever the join returns
the runs return too; if each cell that has a part in the filter can be read, the two are the same,
failures of the scan included; and over a plain scan the rows kept are those for which SQL makes the
predicate true. -/
theorem filterCorrelatedSubquery_eq_filterPerRow (sub : BoundSubqueryFilter)
    (schema addressable : List LogicalType) (rows : List Cells)
    (htyped : ∀ q, sub.subquery = .plain q → sub.Typed q schema addressable)
    (hlayout : ∀ q, sub.subquery = .plain q → sub.Layout q) (hm : InMemory rows)
    (hm' : ∀ q inner, sub.subquery = .plain q → q.rows = .ok inner →
      InMemory (inner.map q.projectRow)) :
    (∀ kept, sub.filterCorrelatedSubquery schema addressable rows = .ok kept →
        sub.filterPerRow schema addressable rows = .ok kept) ∧
      ∀ q inner, sub.subquery = .plain q → q.rows = .ok inner →
        (sub.Readable q schema rows inner →
          sub.filterCorrelatedSubquery schema addressable rows =
            sub.filterPerRow schema addressable rows) ∧
        ∀ kept, sub.filterPerRow schema addressable rows = .ok kept →
          kept = rows.filter fun row => sub.meaning q schema inner row = some true := by
  have hcases := dispatch_cases htyped hlayout hm hm'
  refine ⟨fun kept hok => ?_, fun q inner hq hrows => ⟨fun hread => ?_, fun kept hok => ?_⟩⟩
  · rcases hcases with heq | ⟨q, hq, hkind, hiff⟩
    · rwa [heq] at hok
    · obtain ⟨inner, hrows, hread, rfl⟩ := (hiff kept).1 hok
      exact filterPerRow_of_readable (htyped q hq) hrows hread hkind
  · rcases hcases with heq | ⟨q', hq', hkind, hiff⟩
    · exact heq
    · rw [hq] at hq'
      cases hq'
      rw [(hiff _).2 ⟨inner, hrows, hread, rfl⟩,
        filterPerRow_of_readable (htyped q hq) hrows hread hkind]
  · exact filterPerRow_ok (htyped q hq) hrows hok

end BoundSubqueryFilter

/-- `t.a NOT IN (SELECT s.a FROM s WHERE s.k = t.k)` over a table `s` with the columns `k` and `a`,
where the group of 1 is without a `NULL` and that of 2 with one. -/
def notInGroup : BoundSubqueryFilter where
  kind := .inSet 1 true
  subquery := .plain ⟨[.int4, .int4], .ok [[some [1, 0, 0, 0], some [7, 0, 0, 0]],
    [some [2, 0, 0, 0], some [7, 0, 0, 0]], [some [2, 0, 0, 0], none]],
    .items [.column 1, .column 0]⟩
  correlation := ⟨0, 0, .eq⟩

/-- Rows of `t`, with the columns `k` and `a`. -/
def outerSample : List Cells :=
  [[some [1, 0, 0, 0], some [8, 0, 0, 0]], [some [1, 0, 0, 0], some [7, 0, 0, 0]],
    [some [1, 0, 0, 0], none], [some [2, 0, 0, 0], some [8, 0, 0, 0]],
    [some [3, 0, 0, 0], none], [none, some [7, 0, 0, 0]]]

theorem filter_notInGroup :
    notInGroup.filterPerRow [.int4, .int4] [.int4, .int4] outerSample =
      .ok [[some [1, 0, 0, 0], some [8, 0, 0, 0]], [some [3, 0, 0, 0], none],
        [none, some [7, 0, 0, 0]]] := by
  refine (BoundSubqueryFilter.filterCorrelatedSubquery_eq_filterPerRow notInGroup [.int4, .int4]
    [.int4, .int4] outerSample ?_ ?_ ?_ ?_).1 _ (by decide)
  · intro q hq
    cases hq
    refine ⟨rfl, List.prefix_refl _, rfl, rfl, fun column hc => ?_⟩
    cases hc
    exact ⟨rfl, _, rfl, rfl⟩
  · intro q hq
    cases hq
    exact ⟨fun _ h => (by cases h), fun column negated h _ => ⟨_, rfl⟩⟩
  · have hall : ∀ row ∈ outerSample, ∀ c ∈ row, c.all (·.length < 2 ^ 64) := by decide
    intro row hrow bytes hb
    simpa using hall row hrow _ hb
  · intro q inner hq hrows
    cases hq
    cases hrows
    have hall : ∀ row ∈ [[some [7, 0, 0, 0], some [1, 0, 0, 0]],
        [some [7, 0, 0, 0], some [2, 0, 0, 0]], [none, some [2, 0, 0, 0]]],
        ∀ c ∈ row, (c : Option Bytes).all (·.length < 2 ^ 64) := by decide
    intro row hrow bytes hb
    simpa using hall row hrow _ hb

end Subquery

end SteleDb
