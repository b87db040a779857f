import SteleDb.Storage.Record

/-!
# The hash join

An equi-join of two inputs on one key each.  The right input is filed in a table by its key, the
left input probes it row by row; the result names the rows of the two inputs by their index.  A key
that is NULL (`none`) is not filed and finds nothing.

`pairs_hashJoin`, `gather_semi` and `gather_anti` say what the four join types compute: the nested
loop over the left rows, each with the right rows of its key in their order.
-/

namespace SteleDb

/-- Which join to compute. -/
inductive JoinType where
  /-- The pairs of rows with equal keys. -/
  | inner
  /-- The same, and each left row without a partner once. -/
  | left
  /-- The left rows that have a partner. -/
  | semi
  /-- The left rows that have none. -/
  | anti
  deriving DecidableEq, Repr

/-- The output has the cells of the right side. -/
def JoinType.keepsRight : JoinType → Bool
  | .inner | .left => true
  | .semi | .anti => false

/-- The rows of a join, as indices into its inputs. -/
structure JoinIndices where
  /-- The left row of each output row. -/
  left : List ℕ
  /-- The right row of each output row, if the join keeps the right side; `none` where a left row
  has no partner. -/
  right : List (Option ℕ)
  deriving DecidableEq, Repr

/-- File the rows of the right side by their keys. -/
def buildTable (rightKeys : List (Option Bytes)) : OrdMap Bytes (List ℕ) :=
  rightKeys.zipIdx.foldl
    (fun table e => match e.1 with
      | some key => table.insert key (table[key]?.getD [] ++ [e.2])
      | none => table) ∅

/-- The right rows that a left key finds. -/
def probe (table : OrdMap Bytes (List ℕ)) (key : Option Bytes) : List ℕ :=
  (key.bind fun k => table[k]?).getD []

/-- What a left row that finds `found` adds to the output. -/
def JoinType.emit (t : JoinType) (l : ℕ) (found : List ℕ) : JoinIndices :=
  match t with
  | .inner => ⟨found.map fun _ => l, found.map some⟩
  | .left => if found = [] then ⟨[l], [none]⟩ else ⟨found.map fun _ => l, found.map some⟩
  | .semi => ⟨if found = [] then [] else [l], []⟩
  | .anti => ⟨if found = [] then [l] else [], []⟩

/-- Equi-join two inputs, given by the key of each row. -/
def hashJoin (t : JoinType) (leftKeys rightKeys : List (Option Bytes)) : JoinIndices :=
  let table := buildTable rightKeys
  let out := leftKeys.zipIdx.map fun e => t.emit e.2 (probe table e.1)
  ⟨out.flatMap JoinIndices.left, out.flatMap JoinIndices.right⟩

/-- The output rows of a join that keeps the right side, by their indices. -/
def JoinIndices.pairs (ix : JoinIndices) : List (ℕ × Option ℕ) := ix.left.zip ix.right

/-- The right rows of each of `n` left rows. -/
def JoinIndices.byLeft (n : ℕ) (ix : JoinIndices) : List (List ℕ) :=
  (List.range n).map fun l => ix.pairs.filterMap fun e => if e.1 = l then e.2 else none

/-! ### The table -/

/-- The rows with the key `k`, ascending. -/
def rowsOf (keys : List (Option Bytes)) (k : Bytes) : List ℕ :=
  (keys.zipIdx.filter fun e => e.1 = some k).map Prod.snd

theorem getElem?_buildTable (keys : List (Option Bytes)) (k : Bytes) :
    (buildTable keys)[k]?.getD [] = rowsOf keys k := by
  -- the same over any part of the rows, onto any table
  suffices h : ∀ (l : List (Option Bytes × ℕ)) (table : OrdMap Bytes (List ℕ)),
      (l.foldl (fun table e => match e.1 with
        | some key => table.insert key (table[key]?.getD [] ++ [e.2])
        | none => table) table)[k]?.getD [] =
        table[k]?.getD [] ++ (l.filter fun e => e.1 = some k).map Prod.snd by
    rw [buildTable, h]
    simp [rowsOf]
  intro l
  induction l with
  | nil => simp
  | cons e l ih =>
    intro table
    obtain ⟨key, r⟩ := e
    rw [List.foldl_cons, ih]
    cases key with
    | none => simp
    | some key =>
      simp only [OrdMap.getElem?_insert]
      by_cases hk : key = k
      · subst hk
        simp
      · simp [hk]

theorem probe_buildTable (keys : List (Option Bytes)) (key : Option Bytes) :
    probe (buildTable keys) key = (key.map (rowsOf keys)).getD [] := by
  cases key with
  | none => rfl
  | some k => simp [probe, getElem?_buildTable]

/-- The rows that a key names are the rows with that key. -/
theorem gather_rowsOf {β : Type*} (rows : List β) (f : β → Option Bytes) (k : Bytes) :
    (rowsOf (rows.map f) k).filterMap (rows[·]?) = rows.filter fun y => f y = some k := by
  have hget : ∀ e ∈ rows.zipIdx.filter (fun e => decide (f e.1 = some k)),
      rows[e.2]? = some e.1 := fun e he =>
    List.mem_zipIdx_iff_getElem?.1 (List.mem_filter.1 he).1
  have hrows : rowsOf (rows.map f) k =
      (rows.zipIdx.filter fun e => decide (f e.1 = some k)).map Prod.snd := by
    simp [rowsOf, List.zipIdx_map, List.filter_map, Function.comp_def]
  calc (rowsOf (rows.map f) k).filterMap (rows[·]?)
      = (rows.zipIdx.filter fun e => decide (f e.1 = some k)).filterMap fun e => rows[e.2]? := by
        rw [hrows, List.filterMap_map]; rfl
    _ = (rows.zipIdx.filter fun e => decide (f e.1 = some k)).map Prod.fst := by
        rw [List.filterMap_congr hget, List.filterMap_eq_map']
    _ = (rows.zipIdx.map Prod.fst).filter fun y => decide (f y = some k) := by
        rw [List.filter_map]; rfl
    _ = rows.filter fun y => f y = some k := by rw [List.zipIdx_map_fst]

/-! ### The join -/

/-- The right rows with the key of a left row, in their order. -/
def partners {β γ : Type*} (f : β → Option Bytes) (g : γ → Option Bytes) (rows : List γ) (x : β) :
    List γ :=
  (f x).elim [] fun k => rows.filter fun y => g y = some k

theorem gather_probe {β γ : Type*} (f : β → Option Bytes) (g : γ → Option Bytes) (rows : List γ)
    (x : β) : (probe (buildTable (rows.map g)) (f x)).filterMap (rows[·]?) =
      partners f g rows x := by
  rw [probe_buildTable, partners]
  cases f x with
  | none => rfl
  | some k => exact gather_rowsOf rows g k

/-- A key finds only rows that are there. -/
theorem exists_of_mem_probe {β γ : Type*} {f : β → Option Bytes} {g : γ → Option Bytes}
    {rows : List γ} {x : β} {r : ℕ} (hr : r ∈ probe (buildTable (rows.map g)) (f x)) :
    ∃ y, rows[r]? = some y := by
  rw [probe_buildTable] at hr
  cases hk : f x with
  | none => rw [hk] at hr; cases hr
  | some k =>
    rw [hk] at hr
    obtain ⟨e, he, rfl⟩ := List.mem_map.1 hr
    have hsome := List.mem_zipIdx_iff_getElem?.1 (List.mem_filter.1 he).1
    rw [List.getElem?_map, Option.map_eq_some_iff] at hsome
    obtain ⟨y, hy, -⟩ := hsome
    exact ⟨y, hy⟩

theorem probe_eq_nil {β γ : Type*} (f : β → Option Bytes) (g : γ → Option Bytes) (rows : List γ)
    (x : β) : probe (buildTable (rows.map g)) (f x) = [] ↔ partners f g rows x = [] := by
  constructor
  · intro h
    rw [← gather_probe, h, List.filterMap_nil]
  · intro h
    rw [← gather_probe, List.filterMap_eq_nil_iff] at h
    rw [List.eq_nil_iff_forall_not_mem]
    intro r hr
    obtain ⟨y, hy⟩ := exists_of_mem_probe hr
    rw [h r hr] at hy
    cases hy

theorem zip_flatMap {β : Type*} (l : List β) (f : β → List ℕ) (g : β → List (Option ℕ))
    (h : ∀ x, (f x).length = (g x).length) :
    (l.flatMap f).zip (l.flatMap g) = l.flatMap fun x => (f x).zip (g x) := by
  induction l with
  | nil => rfl
  | cons x l ih =>
    rw [List.flatMap_cons, List.flatMap_cons, List.zip_append (h x), ih, List.flatMap_cons]

/-- The output of a join that keeps the right side: left row by left row. -/
theorem pairs_hashJoin {t : JoinType} (ht : t.keepsRight)
    (leftKeys rightKeys : List (Option Bytes)) :
    (hashJoin t leftKeys rightKeys).pairs =
      leftKeys.zipIdx.flatMap fun e =>
        (t.emit e.2 (probe (buildTable rightKeys) e.1)).pairs := by
  have hlen : ∀ (l : ℕ) (found : List ℕ),
      (t.emit l found).left.length = (t.emit l found).right.length := by
    intro l found
    cases t with
    | inner => simp [JoinType.emit]
    | left => by_cases h : found = [] <;> simp [JoinType.emit, h]
    | semi => cases ht
    | anti => cases ht
  rw [hashJoin, JoinIndices.pairs, List.flatMap_map, List.flatMap_map,
    zip_flatMap _ _ _ fun e => hlen _ _]
  rfl

theorem flatMap_zipIdx_single {β γ : Type*} (l : List β) (h : β → List γ) (n i : ℕ) :
    ((l.zipIdx n).flatMap fun e => if e.2 = n + i then h e.1 else []) = (l[i]?.map h).getD [] := by
  induction l generalizing n i with
  | nil => rfl
  | cons x l ih =>
    rw [List.zipIdx_cons, List.flatMap_cons]
    cases i with
    | zero =>
      have hrest : ((l.zipIdx (n + 1)).flatMap fun e => if e.2 = n + 0 then h e.1 else []) =
          [] := by
        rw [List.flatMap_eq_nil_iff]
        intro e he
        have hle := List.le_snd_of_mem_zipIdx he
        rw [if_neg (by omega)]
      rw [hrest]
      simp
    | succ i =>
      have hidx : n + (i + 1) = n + 1 + i := by omega
      rw [if_neg (by omega), List.nil_append, hidx, ih, List.getElem?_cons_succ]

/-- Grouped by left row, the pairs of an `INNER` join are the rows that each left key finds. -/
theorem byLeft_inner (leftKeys rightKeys : List (Option Bytes)) :
    (hashJoin .inner leftKeys rightKeys).byLeft leftKeys.length =
      leftKeys.map (probe (buildTable rightKeys)) := by
  refine List.ext_getElem (by simp [JoinIndices.byLeft]) fun i hi hi' => ?_
  have hpairs : ∀ e : Option Bytes × ℕ,
      ((JoinType.inner.emit e.2 (probe (buildTable rightKeys) e.1)).pairs.filterMap fun e' =>
        if e'.1 = i then e'.2 else none) =
        if e.2 = 0 + i then probe (buildTable rightKeys) e.1 else [] := by
    intro e
    rw [JoinType.emit, JoinIndices.pairs, List.zip_map', List.filterMap_map]
    by_cases h : e.2 = i
    · simp [h]
    · simp [h]
  have hlen : i < leftKeys.length := by simpa using hi'
  have hinner := pairs_hashJoin (t := .inner) rfl leftKeys rightKeys
  simp only [JoinIndices.byLeft, List.getElem_map, List.getElem_range, hinner,
    List.filterMap_flatMap, hpairs]
  rw [flatMap_zipIdx_single leftKeys (probe (buildTable rightKeys)) 0 i,
    List.getElem?_eq_getElem hlen]
  rfl

section Gather

variable {β γ : Type*} (f : β → Option Bytes) (g : γ → Option Bytes) (lefts : List β)
  (rights : List γ)

/-- Reading rows by their index, row by row. -/
theorem flatMap_zipIdx {δ : Type*} (h : Option Bytes × ℕ → List δ) (h' : β → List δ)
    (heq : ∀ i x, lefts[i]? = some x → h (f x, i) = h' x) :
    (lefts.map f).zipIdx.flatMap h = lefts.flatMap h' := by
  calc (lefts.map f).zipIdx.flatMap h
      = lefts.zipIdx.flatMap fun e => h' e.1 := by
        rw [List.zipIdx_map, List.flatMap_map]
        refine List.flatMap_congr fun e he => ?_
        exact heq e.2 e.1 (List.mem_zipIdx_iff_getElem?.1 he)
    _ = (lefts.zipIdx.map Prod.fst).flatMap h' := by rw [List.flatMap_map]
    _ = lefts.flatMap h' := by rw [List.zipIdx_map_fst]

/-- The rows of a `SEMI` join: the left rows with a partner. -/
theorem gather_semi :
    (hashJoin .semi (lefts.map f) (rights.map g)).left.filterMap (lefts[·]?) =
      lefts.flatMap fun x => if partners f g rights x = [] then [] else [x] := by
  rw [hashJoin, List.flatMap_map, List.filterMap_flatMap]
  refine flatMap_zipIdx f lefts _ _ fun i x hx => ?_
  by_cases h : partners f g rights x = []
  · simp [JoinType.emit, h, (probe_eq_nil f g rights x).2 h]
  · have hne : probe (buildTable (rights.map g)) (f x) ≠ [] := fun hn =>
      h ((probe_eq_nil f g rights x).1 hn)
    simp [JoinType.emit, h, hne, hx]

/-- The rows of an `ANTI` join: the left rows without a partner. -/
theorem gather_anti :
    (hashJoin .anti (lefts.map f) (rights.map g)).left.filterMap (lefts[·]?) =
      lefts.flatMap fun x => if partners f g rights x = [] then [x] else [] := by
  rw [hashJoin, List.flatMap_map, List.filterMap_flatMap]
  refine flatMap_zipIdx f lefts _ _ fun i x hx => ?_
  by_cases h : partners f g rights x = []
  · simp [JoinType.emit, h, (probe_eq_nil f g rights x).2 h, hx]
  · have hne : probe (buildTable (rights.map g)) (f x) ≠ [] := fun hn =>
      h ((probe_eq_nil f g rights x).1 hn)
    simp [JoinType.emit, h, hne]

/-- The two rows that a pair of indices names. -/
def rowsAt (e : ℕ × Option ℕ) : Option (β × Option γ) :=
  lefts[e.1]?.map fun x => (x, e.2.bind (rights[·]?))

theorem filterMap_rowsAt {i : ℕ} {x : β} (hx : lefts[i]? = some x) :
    (((probe (buildTable (rights.map g)) (f x)).map fun _ => i).zip
        ((probe (buildTable (rights.map g)) (f x)).map some)).filterMap (rowsAt lefts rights) =
      (partners f g rights x).map fun y => (x, some y) := by
  rw [← gather_probe f g rights x, List.map_filterMap, List.zip_map', List.filterMap_map]
  refine List.filterMap_congr fun r hr => ?_
  obtain ⟨y, hy⟩ := exists_of_mem_probe hr
  simp [rowsAt, hx, hy]

/-- The rows of an `INNER` join: each left row with each of its partners. -/
theorem gather_inner :
    (hashJoin .inner (lefts.map f) (rights.map g)).pairs.filterMap (rowsAt lefts rights) =
      lefts.flatMap fun x => (partners f g rights x).map fun y => (x, some y) := by
  rw [pairs_hashJoin rfl, List.filterMap_flatMap]
  exact flatMap_zipIdx f lefts _ _ fun i x hx => filterMap_rowsAt f g lefts rights hx

/-- The rows of a `LEFT` join: the same, and each left row without a partner once. -/
theorem gather_left :
    (hashJoin .left (lefts.map f) (rights.map g)).pairs.filterMap (rowsAt lefts rights) =
      lefts.flatMap fun x => if partners f g rights x = [] then [(x, none)]
        else (partners f g rights x).map fun y => (x, some y) := by
  rw [pairs_hashJoin rfl, List.filterMap_flatMap]
  refine flatMap_zipIdx f lefts _ _ fun i x hx => ?_
  by_cases h : partners f g rights x = []
  · simp [JoinType.emit, JoinIndices.pairs, h, (probe_eq_nil f g rights x).2 h, rowsAt, hx]
  · have hne : probe (buildTable (rights.map g)) (f x) ≠ [] := fun hn =>
      h ((probe_eq_nil f g rights x).1 hn)
    rw [if_neg h, ← filterMap_rowsAt f g lefts rights hx]
    simp only [JoinType.emit, if_neg hne, JoinIndices.pairs]

end Gather

end SteleDb
