import SteleDb.Exec.HashJoin
import SteleDb.Exec.ScalarOrder

/-!
# The join of two batches

`hashJoinColumns` is the join as the executor calls it: the keys are expressions over the columns of
the two sides, and the table is filed by the canonical encodings of their values.  `nestedLoop` is
what a join means: for each left row in order the right rows in order whose key compares equal.

`hashJoinColumns_eq_nestedLoop` says that the two agree if the keys have one type.
-/

namespace SteleDb

/-- The bytes that stand for a key in the table. -/
def encodeScalar (value : ScalarValue) : Bytes := value.encode

/-- The encoded key of each of `rows` rows. -/
def encodedKeys (keys : Vector) (rows : ℕ) : List (Option Bytes) :=
  (List.range rows).map fun r => (keys.get r).map encodeScalar

/-- Join two batches on an expression each. -/
def hashJoinColumns (t : JoinType) (left : List Vector) (leftRows : ℕ) (leftKey : Expr)
    (right : List Vector) (rightRows : ℕ) (rightKey : Expr) : Except ExprError JoinIndices := do
  let leftKeys ← evalExpr leftKey left leftRows
  let rightKeys ← evalExpr rightKey right rightRows
  .ok (hashJoin t (encodedKeys leftKeys leftRows) (encodedKeys rightKeys rightRows))

/-! ### The nested loop -/

/-- The rows of a join of `n` left rows with `m` right rows: the left row, and the right row if the
output has one. -/
def nestedLoop (t : JoinType) (n m : ℕ) (joins : ℕ → ℕ → Bool) : List (ℕ × Option ℕ) :=
  match t with
  | .inner => (List.range n).flatMap fun l =>
    ((List.range m).filter (joins l)).map fun r => (l, some r)
  | .left => (List.range n).flatMap fun l =>
    if (List.range m).filter (joins l) = [] then [(l, none)]
    else ((List.range m).filter (joins l)).map fun r => (l, some r)
  | .semi => ((List.range n).filter fun l => (List.range m).any (joins l)).map fun l => (l, none)
  | .anti => ((List.range n).filter fun l => !(List.range m).any (joins l)).map fun l => (l, none)

/-- The left row `l` and the right row `r` have the same key, and it is not `NULL`. -/
def keysEqual (leftKey : Expr) (left : List Vector) (rightKey : Expr) (right : List Vector)
    (l r : ℕ) : Bool :=
  (evalRow leftKey (left.map (·.get l))).isSome ∧
    evalRow leftKey (left.map (·.get l)) = evalRow rightKey (right.map (·.get r))

theorem filter_eq_nil_iff_any {α : Type*} (xs : List α) (p : α → Bool) :
    xs.filter p = [] ↔ xs.any p = false := by
  simp

theorem flatMap_if_singleton (xs : List ℕ) (p : ℕ → Bool) :
    (xs.flatMap fun x => if p x then [x] else []) = xs.filter p := by
  induction xs with
  | nil => rfl
  | cons x xs ih =>
    rw [List.flatMap_cons, ih]
    cases hp : p x <;> simp [hp]

/-- The right rows that a left key finds are the ones whose key it equals. -/
theorem probe_encodedKeys {rightKeys : Vector} {m : ℕ} {joins : ℕ → Bool} (key : Option Bytes)
    (h : ∀ r < m, joins r = true ↔
      ∃ k, key = some k ∧ (rightKeys.get r).map encodeScalar = some k) :
    probe (buildTable (encodedKeys rightKeys m)) key = (List.range m).filter joins := by
  rw [probe_buildTable]
  cases key with
  | none =>
    refine (List.filter_eq_nil_iff.2 fun r hr => ?_).symm
    rw [h r (List.mem_range.1 hr)]
    rintro ⟨k, hk, -⟩
    cases hk
  | some k =>
    have hzip : (encodedKeys rightKeys m).zipIdx =
        (List.range m).map fun r => ((rightKeys.get r).map encodeScalar, r) := by
      refine List.ext_getElem (by simp [encodedKeys]) fun i hi hi' => ?_
      simp [encodedKeys]
    simp only [Option.map_some, Option.getD_some, rowsOf, hzip, List.filter_map, List.map_map]
    rw [show (Prod.snd ∘ fun r => ((rightKeys.get r).map encodeScalar, r)) = id from rfl,
      List.map_id]
    refine List.filter_congr fun r hr => ?_
    rw [Bool.eq_iff_iff, h r (List.mem_range.1 hr)]
    simp

/-- The output of a join, if each left row finds the right rows that it joins. -/
theorem hashJoin_eq_nestedLoop (leftKeys rightKeys : Vector) {n m : ℕ} {joins : ℕ → ℕ → Bool}
    (h : ∀ l < n, probe (buildTable (encodedKeys rightKeys m))
      ((leftKeys.get l).map encodeScalar) = (List.range m).filter (joins l)) (t : JoinType) :
    (hashJoin t (encodedKeys leftKeys n) (encodedKeys rightKeys m)).left =
        (nestedLoop t n m joins).map Prod.fst ∧
      (hashJoin t (encodedKeys leftKeys n) (encodedKeys rightKeys m)).right =
        if t.keepsRight then (nestedLoop t n m joins).map Prod.snd else [] := by
  have hzip : (encodedKeys leftKeys n).zipIdx =
      (List.range n).map fun l => ((leftKeys.get l).map encodeScalar, l) := by
    refine List.ext_getElem (by simp [encodedKeys]) fun i hi hi' => ?_
    simp [encodedKeys]
  have hout : ((encodedKeys leftKeys n).zipIdx.map fun e =>
      t.emit e.2 (probe (buildTable (encodedKeys rightKeys m)) e.1)) =
      (List.range n).map fun l => t.emit l ((List.range m).filter (joins l)) := by
    rw [hzip, List.map_map]
    refine List.map_congr_left fun l hl => ?_
    simp only [Function.comp, h l (List.mem_range.1 hl)]
  simp only [hashJoin, hout, List.flatMap_map]
  cases t with
  | inner =>
    simp only [nestedLoop, JoinType.emit, JoinType.keepsRight, List.map_flatMap, List.map_map,
      if_true]
    exact ⟨rfl, rfl⟩
  | left =>
    simp only [nestedLoop, JoinType.emit, JoinType.keepsRight, List.map_flatMap, if_true]
    constructor <;>
    · refine List.flatMap_congr fun l _ => ?_
      split_ifs
      · rfl
      · rw [List.map_map]
        rfl
  | semi =>
    have hright : ((List.range n).flatMap fun l =>
        (JoinType.semi.emit l ((List.range m).filter (joins l))).right) = [] :=
      List.flatMap_eq_nil_iff.2 fun l _ => rfl
    refine ⟨?_, hright⟩
    rw [nestedLoop, List.map_map, ← flatMap_if_singleton]
    refine (List.flatMap_congr fun l _ => ?_).trans (List.map_id _).symm
    cases hany : (List.range m).any (joins l) with
    | false => simp [JoinType.emit, (filter_eq_nil_iff_any _ _).2 hany]
    | true =>
      have hne : (List.range m).filter (joins l) ≠ [] := by
        rw [ne_eq, filter_eq_nil_iff_any, hany]
        decide
      simp only [JoinType.emit, if_neg hne]
      rfl
  | anti =>
    have hright : ((List.range n).flatMap fun l =>
        (JoinType.anti.emit l ((List.range m).filter (joins l))).right) = [] :=
      List.flatMap_eq_nil_iff.2 fun l _ => rfl
    refine ⟨?_, hright⟩
    rw [nestedLoop, List.map_map, ← flatMap_if_singleton]
    refine (List.flatMap_congr fun l _ => ?_).trans (List.map_id _).symm
    cases hany : (List.range m).any (joins l) with
    | false => simp [JoinType.emit, (filter_eq_nil_iff_any _ _).2 hany]
    | true =>
      have hne : (List.range m).filter (joins l) ≠ [] := by
        rw [ne_eq, filter_eq_nil_iff_any, hany]
        decide
      simp only [JoinType.emit, if_neg hne]
      rfl

/-! ### The join -/

theorem nestedLoop_left_unmatched {n m : ℕ} {joins : ℕ → ℕ → Bool} {l : ℕ} (hl : l < n)
    (h : ∀ r < m, joins l r = false) :
    (nestedLoop .left n m joins).filter (fun e => e.1 = l) = [(l, none)] := by
  have hnil : (List.range m).filter (joins l) = [] :=
    List.filter_eq_nil_iff.2 fun r hr => by simp [h r (List.mem_range.1 hr)]
  have hrow : ∀ x, (if (List.range m).filter (joins x) = [] then [(x, none)]
      else ((List.range m).filter (joins x)).map fun r => (x, some r)).filter
        (fun e => decide (e.1 = l)) = if x = l then [(l, none)] else [] := by
    intro x
    by_cases hx : x = l
    · subst hx
      simp [hnil]
    · rw [if_neg hx, List.filter_eq_nil_iff]
      intro e he
      split_ifs at he
      · rw [List.mem_singleton.1 he]
        simpa using hx
      · obtain ⟨r, -, rfl⟩ := List.mem_map.1 he
        simpa using hx
  rw [nestedLoop, List.filter_flatMap]
  simp only [hrow]
  calc ((List.range n).flatMap fun x => if x = l then [(l, none)] else [])
      = ((List.range n).flatMap fun x => if x == l then [x] else []).map fun _ => (l, none) := by
        rw [List.map_flatMap]
        refine List.flatMap_congr fun x _ => ?_
        by_cases hx : x = l <;> simp [hx]
    _ = [(l, none)] := by
        rw [flatMap_if_singleton, List.filter_beq, List.count_eq_one_of_mem List.nodup_range
          (List.mem_range.2 hl)]
        rfl

/-- Each left row is in the `SEMI` join or in the `ANTI` join, once. -/
theorem perm_semi_anti (n m : ℕ) (joins : ℕ → ℕ → Bool) :
    ((nestedLoop .semi n m joins).map Prod.fst ++ (nestedLoop .anti n m joins).map Prod.fst).Perm
      (List.range n) := by
  simp only [nestedLoop, List.map_map]
  rw [show (Prod.fst ∘ fun l : ℕ => (l, (none : Option ℕ))) = id from rfl, List.map_id, List.map_id]
  exact List.filter_append_perm _ _

/-- The keys of a side: they are the values of the key expression, of its type and in range. -/
theorem exists_keys {columns : List Vector} {n : ℕ} {key : Expr} {ty : LogicalType}
    (hlen : ∀ i ∈ key.collectColumns, ∀ v, columns[i]? = some v → v.len = n)
    (hty : exprType key (columns.map Vector.logicalType) = .ok ty) (hkey : key.Fits)
    (hcells : ∀ v ∈ columns, v.Fits) :
    ∃ v, evalExpr key columns n = .ok v ∧
      (∀ i < n, v.get i = evalRow key (columns.map (·.get i))) ∧
      ∀ i < n, ∀ x, v.get i = some x → x.Fits ∧ x.logicalType = ty := by
  rcases evalExpr_yields key hlen with ⟨e, -, he⟩ | ⟨v, hv, ht, hh⟩
  · rw [hty] at he
    cases he
  · rw [hty] at ht
    cases ht
    refine ⟨v, hv, hh.get, fun i hi x hx => ⟨?_, Vector.logicalType_get hx⟩⟩
    rw [hh.get i hi] at hx
    refine fits_evalRow hkey (fun c hc y hy => ?_) hx
    obtain ⟨w, hw, rfl⟩ := List.mem_map.1 hc
    exact hcells w hw i y hy

/-- **A join of two batches is the nested loop.** The rows come out in the order of the left rows
and for each in the order of the right rows; a pair is kept if its keys are the same and not `NULL`,
which is when the evaluator finds them equal; a left row without a partner comes once, with no right
row, out of a `LEFT` join; and each left row is in one of `SEMI` and `ANTI`. -/
theorem hashJoinColumns_eq_nestedLoop (t : JoinType) {left right : List Vector} {n m : ℕ}
    {leftKey rightKey : Expr} {ty : LogicalType}
    (hleft : ∀ i ∈ leftKey.collectColumns, ∀ v, left[i]? = some v → v.len = n)
    (hright : ∀ i ∈ rightKey.collectColumns, ∀ v, right[i]? = some v → v.len = m)
    (htyl : exprType leftKey (left.map Vector.logicalType) = .ok ty)
    (htyr : exprType rightKey (right.map Vector.logicalType) = .ok ty)
    (hfl : leftKey.Fits) (hfr : rightKey.Fits) (hcl : ∀ v ∈ left, v.Fits)
    (hcr : ∀ v ∈ right, v.Fits) :
    (∃ ix, hashJoinColumns t left n leftKey right m rightKey = .ok ix ∧
        ix.left = (nestedLoop t n m (keysEqual leftKey left rightKey right)).map Prod.fst ∧
        ix.right = if t.keepsRight then
          (nestedLoop t n m (keysEqual leftKey left rightKey right)).map Prod.snd else []) ∧
      (∀ l < n, ∀ r < m, keysEqual leftKey left rightKey right l r ↔
        strict (ScalarValue.compare .eq) (evalRow leftKey (left.map (·.get l)))
          (evalRow rightKey (right.map (·.get r))) = some (.bool true)) ∧
      (∀ l < n, (∀ r < m, keysEqual leftKey left rightKey right l r = false) →
        (nestedLoop .left n m (keysEqual leftKey left rightKey right)).filter
          (fun e => e.1 = l) = [(l, none)]) ∧
      ((nestedLoop .semi n m (keysEqual leftKey left rightKey right)).map Prod.fst ++
        (nestedLoop .anti n m (keysEqual leftKey left rightKey right)).map Prod.fst).Perm
          (List.range n) := by
  obtain ⟨vl, hvl, hgetl, hxl⟩ := exists_keys hleft htyl hfl hcl
  obtain ⟨vr, hvr, hgetr, hxr⟩ := exists_keys hright htyr hfr hcr
  refine ⟨⟨_, ?_, hashJoin_eq_nestedLoop vl vr
      (fun l hl => probe_encodedKeys _ fun r hr => ?_) t⟩,
    fun l hl r hr => ?_, fun l hl => nestedLoop_left_unmatched hl, perm_semi_anti ..⟩
  · simp only [hashJoinColumns, hvl, hvr, bind, Except.bind]
  · -- keys with the same encoding are the same
    rw [keysEqual, ← hgetl l hl, ← hgetr r hr, decide_eq_true_iff]
    cases hl' : vl.get l with
    | none => simp
    | some x =>
      cases hr' : vr.get r with
      | none => simp
      | some y =>
        have hx := hxl l hl x hl'
        have hy := hxr r hr y hr'
        have hinj : encodeScalar y = encodeScalar x ↔ x = y :=
          ⟨fun h => ScalarValue.encode_inj hx.1 hy.1 (hx.2.trans hy.2.symm) h.symm,
            fun h => by rw [h]⟩
        simp [hinj]
  · rw [keysEqual, ← hgetl l hl, ← hgetr r hr, decide_eq_true_iff]
    cases hl' : vl.get l with
    | none => simp [strict]
    | some x =>
      cases hr' : vr.get r with
      | none => simp [strict]
      | some y =>
        have hty := (hxl l hl x hl').2.trans (hxr r hr y hr').2.symm
        simp [strict, ScalarValue.compare_eq_true hty]

/-- Two int4 columns with a `NULL` and a duplicate. -/
def sampleKeys : List Vector := [⟨.int4, [some 7, none, some 7]⟩]

theorem hashJoinColumns_sample :
    (∃ ix, hashJoinColumns .left sampleKeys 3 (.column 0) sampleKeys 3 (.column 0) = .ok ix ∧
      ix.left = [0, 0, 1, 2, 2] ∧ ix.right = [some 0, some 2, none, some 0, some 2]) := by
  have hlens : ∀ i ∈ (Expr.column 0).collectColumns, ∀ v, sampleKeys[i]? = some v → v.len = 3 := by
    decide
  have hfits : ∀ v ∈ sampleKeys, v.Fits := by
    intro v hv
    rw [List.mem_singleton.1 hv]
    exact Vector.fits_of_cells (by decide)
  obtain ⟨⟨ix, hix, hl, hr⟩, -⟩ := hashJoinColumns_eq_nestedLoop .left hlens hlens rfl rfl trivial
    trivial hfits hfits
  refine ⟨ix, hix, ?_, ?_⟩
  · rw [hl]
    decide
  · rw [hr]
    decide

end SteleDb
