import SteleDb.Exec.Aggregate

/-!
# The shape of a result

After the rows of a query are known, `DISTINCT`, `ORDER BY`, `OFFSET` and `LIMIT` shape the result.
Each works on a selection, a list of row numbers: `DISTINCT` keeps one row of each class of equal
rows, `ORDER BY` sorts the selection and keeps the order of ties, and `OFFSET` and `LIMIT` cut it.

`IsShaped` says what the three do together.  A `NULL` has three roles here: it is equal to itself
for `DISTINCT`, the greatest value for `ORDER BY`, and no value at all for the aggregates before.

* `isShaped_shape` : the pipeline computes the shape;
* `hashAggregate_and_shape` : grouping and shaping equal their definitions.
-/

namespace SteleDb

/-! ### The pipeline -/

/-- A key of an `ORDER BY`. -/
structure SortKey where
  /-- The column to sort by. -/
  column : Vector
  /-- `DESC`. -/
  descending : Bool

/-- Compare nullable cells, `NULL` greatest. -/
def cmpOpt {α : Type} (order : α → α → Ordering) : Option α → Option α → Ordering
  | none, none => .eq
  | none, some _ => .gt
  | some _, none => .lt
  | some x, some y => order x y

/-- Compare the cells of two rows. -/
def cmpCells (column : Vector) (left right : ℕ) : Ordering :=
  match column with
  | ⟨.bool, v⟩ => cmpOpt cmp v[left]?.join v[right]?.join
  | ⟨.int4, v⟩ => cmpOpt cmp v[left]?.join v[right]?.join
  | ⟨.date, v⟩ => cmpOpt cmp v[left]?.join v[right]?.join
  | ⟨.int8, v⟩ => cmpOpt cmp v[left]?.join v[right]?.join
  | ⟨.timestamp, v⟩ => cmpOpt cmp v[left]?.join v[right]?.join
  | ⟨.timestampTz, v⟩ => cmpOpt cmp v[left]?.join v[right]?.join
  | ⟨.text, v⟩ => cmpOpt cmp v[left]?.join v[right]?.join
  | ⟨.uuid, v⟩ => cmpOpt cmp v[left]?.join v[right]?.join
  | ⟨.bytea, v⟩ => cmpOpt cmp v[left]?.join v[right]?.join
  | ⟨.period, v⟩ => cmpOpt cmpPeriod v[left]?.join v[right]?.join
  | ⟨.float8, v⟩ => cmpOpt totalCmp v[left]?.join v[right]?.join

/-- Compare two rows by the keys, first key first. -/
def cmpRows : List SortKey → ℕ → ℕ → Ordering
  | [], _, _ => .eq
  | key :: keys, a, b =>
    let ord := cmpCells key.column a b
    let ord := if key.descending then ord.swap else ord
    if ord ≠ .eq then ord else cmpRows keys a b

/-- Sort a selection; ties keep their order. -/
def sortSelection (keys : List SortKey) (selection : List ℕ) : List ℕ :=
  selection.mergeSort fun a b => (cmpRows keys a b).isLE

/-- Keep the first row of each encoded tuple, in the order of the tuples. -/
def distinctSelection (columns : List Vector) (selection : List ℕ) : List ℕ :=
  (OrdMap.firstOfEach (fun r => encodeTuple (keysAt columns r)) selection).toList.map Prod.snd

/-- The number as a `usize` of `bits` bits; one that does not fit is the greatest there is. -/
def saturate (bits n : ℕ) : ℕ := if n < 2 ^ bits then n else 2 ^ bits - 1

/-- Skip `offset` rows and keep at most `limit`. -/
def limitSelection (bits : ℕ) (selection : List ℕ) (offset : ℕ) (limit : Option ℕ) : List ℕ :=
  let skip := min (saturate bits offset) selection.length
  let rest := selection.drop skip
  match limit with
  | none => rest
  | some limit => rest.take (min (saturate bits limit) rest.length)

/-- The clauses that shape a result. -/
structure Shaping where
  /-- `DISTINCT`. -/
  distinct : Bool
  /-- The columns of the result. -/
  columns : List Vector
  /-- `ORDER BY`. -/
  orderBy : List SortKey
  /-- `OFFSET`. -/
  offset : ℕ
  /-- `LIMIT`. -/
  limit : Option ℕ

/-- The clauses in their order. -/
def shape (bits : ℕ) (q : Shaping) (selection : List ℕ) : List ℕ :=
  let selection := if q.distinct then distinctSelection q.columns selection else selection
  let selection := if q.orderBy.isEmpty then selection else sortSelection q.orderBy selection
  limitSelection bits selection q.offset q.limit

/-! ### What a shape is -/

/-- The order of nullable values of a type, `NULL` greatest. -/
def cellOrder : Option ScalarValue → Option ScalarValue → Ordering :=
  cmpOpt fun a b => (a.order b).getD .eq

/-- The order of rows by the keys: the first key on which two rows differ decides, in its
direction. -/
def rowOrder (keys : List SortKey) (a b : ℕ) : Ordering :=
  (keys.map fun key =>
    if key.descending then cellOrder (key.column.get b) (key.column.get a)
    else cellOrder (key.column.get a) (key.column.get b)).foldr Ordering.then .eq

/-- The rows are the first one of each class of equal rows, in the order of their encodings. -/
structure IsDistinct (columns : List Vector) (selection rows : List ℕ) : Prop where
  mem_iff : ∀ r, r ∈ rows ↔
    selection.find? (fun s => keysAt columns s = keysAt columns r) = some r
  sorted : rows.Pairwise fun a b =>
    encodeTuple (keysAt columns a) < encodeTuple (keysAt columns b)

/-- The rows are sorted by the keys, and ties are in their order from before. -/
structure IsSorted (keys : List SortKey) (selection rows : List ℕ) : Prop where
  perm : rows.Perm selection
  sorted : rows.Pairwise fun a b => rowOrder keys a b ≠ .gt
  ties : ∀ a b, [a, b].Sublist selection → rowOrder keys a b = .eq → [a, b].Sublist rows

/-- The result of the clauses in their order. -/
def IsShaped (q : Shaping) (selection result : List ℕ) : Prop :=
  ∃ distinct sorted, (if q.distinct then IsDistinct q.columns selection distinct
      else distinct = selection) ∧
    IsSorted q.orderBy distinct sorted ∧
    result = q.limit.elim (sorted.drop q.offset) fun n => (sorted.drop q.offset).take n

/-! ### The order of rows -/

theorem transCmp_cmpOpt {α : Type} {order : α → α → Ordering} (h : Std.TransCmp order) :
    Std.TransCmp (cmpOpt order) where
  eq_swap {a b} := by
    cases a <;> cases b <;> first | rfl | exact h.eq_swap
  isLE_trans {a b c} hab hbc := by
    cases a <;> cases b <;> cases c <;> first
      | rfl
      | cases hbc
      | cases hab
      | exact h.isLE_trans hab hbc

theorem transCmp_cmp_list : Std.TransCmp (cmp : List ℤ → List ℤ → Ordering) where
  eq_swap {a b} := by
    rcases lt_trichotomy a b with h | rfl | h
    · rw [cmp_list_eq_lt.2 h, cmp_list_eq_gt.2 h]
      rfl
    · cases hc : cmp a a with
      | eq => rfl
      | lt => exact absurd (cmp_list_eq_lt.1 hc) (lt_irrefl a)
      | gt => exact absurd (cmp_list_eq_gt.1 hc) (lt_irrefl a)
    · rw [cmp_list_eq_gt.2 h, cmp_list_eq_lt.2 h]
      rfl
  isLE_trans {a b c} hab hbc := by
    simp only [Ordering.isLE_iff_ne_gt, cmp_list_eq_gt] at hab hbc ⊢
    exact not_lt.2 (le_trans (not_lt.1 hab) (not_lt.1 hbc))

theorem transCmp_comap {α β : Type} {order : β → β → Ordering} (h : Std.TransCmp order)
    (f : α → β) : Std.TransCmp fun a b => order (f a) (f b) where
  eq_swap := h.eq_swap
  isLE_trans := h.isLE_trans

theorem cellOrder_get (v : Vector) (a b : ℕ) :
    cellOrder (v.get a) (v.get b) =
      cmpOpt cmp ((v.get a).map ScalarValue.sortKey) ((v.get b).map ScalarValue.sortKey) := by
  cases ha : v.get a with
  | none => cases v.get b <;> rfl
  | some x =>
    cases hb : v.get b with
    | none => rfl
    | some y =>
      have hty := (Vector.logicalType_get ha).trans (Vector.logicalType_get hb).symm
      simp only [cellOrder, cmpOpt, Option.map_some, ScalarValue.order_eq_cmp hty,
        Option.getD_some]

theorem transCmp_cellOrder (v : Vector) :
    Std.TransCmp fun a b => cellOrder (v.get a) (v.get b) := by
  have h := transCmp_comap (transCmp_cmpOpt transCmp_cmp_list)
    fun r => (v.get r).map ScalarValue.sortKey
  simpa only [cellOrder_get] using h

theorem transCmp_rowOrder (keys : List SortKey) : Std.TransCmp (rowOrder keys) := by
  induction keys with
  | nil => exact { eq_swap := rfl, isLE_trans := fun _ _ => rfl }
  | cons key keys ih =>
    have hkey := transCmp_cellOrder key.column
    have hdir : Std.TransCmp fun a b => if key.descending then
        cellOrder (key.column.get b) (key.column.get a)
        else cellOrder (key.column.get a) (key.column.get b) := by
      cases key.descending with
      | false => exact hkey
      | true => exact { eq_swap := hkey.eq_swap, isLE_trans := fun h h' => hkey.isLE_trans h' h }
    exact inferInstanceAs (Std.TransCmp (compareLex _ (rowOrder keys)))

theorem cmpOpt_map {α β : Type} (order : β → β → Ordering) (f : α → β) (x y : Option α) :
    cmpOpt order (x.map f) (y.map f) = cmpOpt (fun a b => order (f a) (f b)) x y := by
  cases x <;> cases y <;> rfl

theorem cmpCells_eq_cellOrder (v : Vector) (a b : ℕ) :
    cmpCells v a b = cellOrder (v.get a) (v.get b) := by
  obtain ⟨ty, cells⟩ := v
  rw [Vector.get, Vector.get, cellOrder, cmpOpt_map]
  cases ty <;> rfl

theorem cmpRows_eq_rowOrder (keys : List SortKey) (a b : ℕ) :
    cmpRows keys a b = rowOrder keys a b := by
  induction keys with
  | nil => rfl
  | cons key keys ih =>
    have hswap : (cellOrder (key.column.get a) (key.column.get b)).swap =
        cellOrder (key.column.get b) (key.column.get a) :=
      ((transCmp_cellOrder key.column).eq_swap).symm
    rw [cmpRows, cmpCells_eq_cellOrder, hswap, ih]
    simp only [rowOrder, List.map_cons, List.foldr_cons]
    generalize (if key.descending = true then cellOrder (key.column.get b) (key.column.get a)
      else cellOrder (key.column.get a) (key.column.get b)) = o
    cases o <;> rfl

/-! ### The clauses -/

theorem isSorted_sortSelection (keys : List SortKey) (selection : List ℕ) :
    IsSorted keys selection (sortSelection keys selection) := by
  have htrans := transCmp_rowOrder keys
  have hle : ∀ a b c : ℕ, (cmpRows keys a b).isLE → (cmpRows keys b c).isLE →
      (cmpRows keys a c).isLE := by
    intro a b c
    simp only [cmpRows_eq_rowOrder]
    exact htrans.isLE_trans
  have htotal : ∀ a b : ℕ, (cmpRows keys a b).isLE || (cmpRows keys b a).isLE := by
    intro a b
    rw [cmpRows_eq_rowOrder, cmpRows_eq_rowOrder, htrans.eq_swap (a := b)]
    cases rowOrder keys a b <;> rfl
  constructor
  case perm => exact List.mergeSort_perm _ _
  case sorted =>
    refine (List.pairwise_mergeSort hle htotal selection).imp fun {a b} h => ?_
    rwa [cmpRows_eq_rowOrder, Ordering.isLE_iff_ne_gt] at h
  case ties =>
    intro a b hab heq
    refine List.pair_sublist_mergeSort hle htotal ?_ hab
    rw [cmpRows_eq_rowOrder, heq]
    rfl

theorem isDistinct_distinctSelection {columns : List Vector} (h : ∀ v ∈ columns, v.Fits)
    (selection : List ℕ) : IsDistinct columns selection (distinctSelection columns selection) := by
  have hinj : ∀ r s, encodeTuple (keysAt columns r) = encodeTuple (keysAt columns s) ↔
      keysAt columns r = keysAt columns s := by
    intro r s
    refine ⟨fun heq => ?_, congrArg encodeTuple⟩
    rw [encodeTuple, encodeTuple, keysAt, keysAt, List.map_map, List.map_map,
      List.map_inj_left] at heq
    refine List.map_inj_left.2 fun v hv => ?_
    refine encodeCell_inj (fun a ha => h v hv _ a ha) (fun b hb => h v hv _ b hb)
      (fun a b ha hb => ?_) (heq v hv)
    rw [Vector.logicalType_get ha, Vector.logicalType_get hb]
  have hentry : ∀ (k : GroupKey) (r : ℕ),
      (OrdMap.firstOfEach (fun r => encodeTuple (keysAt columns r)) selection)[k]? = some r ↔
        k = encodeTuple (keysAt columns r) ∧
          selection.find? (fun s => keysAt columns s = keysAt columns r) = some r := by
    intro k r
    rw [OrdMap.getElem?_firstOfEach (p := fun s => encodeTuple (keysAt columns s) = k)
      (fun s _ => decide_eq_true_iff)]
    have hfind : ∀ r', k = encodeTuple (keysAt columns r') →
        selection.find? (fun s => encodeTuple (keysAt columns s) = k) =
          selection.find? fun s => keysAt columns s = keysAt columns r' := by
      rintro r' rfl
      exact List.find?_congr fun s _ => decide_eq_decide.2 (hinj s r')
    constructor
    · intro hr
      have hk := List.find?_some hr
      rw [decide_eq_true_iff] at hk
      exact ⟨hk.symm, by rw [← hfind r hk.symm, hr]⟩
    · rintro ⟨hk, hr⟩
      rw [hfind r hk, hr]
  constructor
  case mem_iff =>
    intro r
    rw [distinctSelection, List.mem_map]
    constructor
    · rintro ⟨⟨k, r⟩, hmem, rfl⟩
      exact ((hentry k r).1 (OrdMap.mem_toList.1 hmem)).2
    · intro hr
      exact ⟨(_, r), OrdMap.mem_toList.2 ((hentry _ r).2 ⟨rfl, hr⟩), rfl⟩
  case sorted =>
    rw [distinctSelection, List.pairwise_map]
    refine (OrdMap.toList_pairwise _).imp_of_mem fun {a b} ha hb hlt => ?_
    rwa [((hentry a.1 a.2).1 (OrdMap.mem_toList.1 ha)).1,
      ((hentry b.1 b.2).1 (OrdMap.mem_toList.1 hb)).1] at hlt

theorem min_saturate {bits len : ℕ} (h : len < 2 ^ bits) (n : ℕ) :
    min (saturate bits n) len = min n len := by
  rw [saturate]
  split_ifs <;> omega

/-- No number of rows to skip or to keep overflows. -/
theorem limitSelection_eq {bits : ℕ} {selection : List ℕ} (h : selection.length < 2 ^ bits)
    (offset : ℕ) (limit : Option ℕ) :
    limitSelection bits selection offset limit =
      limit.elim (selection.drop offset) fun n => (selection.drop offset).take n := by
  have hskip : selection.drop (min (saturate bits offset) selection.length) =
      selection.drop offset := by
    rw [min_saturate h, ← List.drop_eq_drop_min]
  have hrest : (selection.drop offset).length < 2 ^ bits := by
    rw [List.length_drop]
    omega
  cases limit with
  | none => exact hskip
  | some n =>
    simp only [limitSelection, hskip, Option.elim_some]
    rw [min_saturate hrest, ← List.take_eq_take_min]

theorem isSorted_nil (selection : List ℕ) : IsSorted [] selection selection where
  perm := .refl _
  sorted := List.pairwise_of_forall fun _ _ h => by cases h
  ties := fun _ _ h _ => h

theorem IsDistinct.length_le {columns : List Vector} {selection rows : List ℕ}
    (h : IsDistinct columns selection rows) : rows.length ≤ selection.length := by
  have hnodup : rows.Nodup := by
    refine h.sorted.imp fun {a b} hlt => ?_
    rintro rfl
    exact lt_irrefl _ hlt
  refine (List.subperm_of_subset hnodup fun r hr => ?_).length_le
  exact List.mem_of_find?_eq_some ((h.mem_iff r).1 hr)

/-- **The pipeline computes the shape.** -/
theorem isShaped_shape {bits : ℕ} {q : Shaping} (h : ∀ v ∈ q.columns, v.Fits)
    {selection : List ℕ} (hlen : selection.length < 2 ^ bits) :
    IsShaped q selection (shape bits q selection) := by
  obtain ⟨distinct, hdistinct, heq, hle⟩ : ∃ distinct,
      (if q.distinct then IsDistinct q.columns selection distinct else distinct = selection) ∧
      (if q.distinct then distinctSelection q.columns selection else selection) = distinct ∧
      distinct.length ≤ selection.length := by
    split_ifs
    · have hd := isDistinct_distinctSelection h selection
      exact ⟨_, hd, rfl, hd.length_le⟩
    · exact ⟨_, rfl, rfl, le_rfl⟩
  obtain ⟨sorted, hsorted, heq'⟩ : ∃ sorted, IsSorted q.orderBy distinct sorted ∧
      (if q.orderBy.isEmpty then distinct else sortSelection q.orderBy distinct) = sorted := by
    split_ifs with hempty
    · rw [List.isEmpty_iff.1 hempty]
      exact ⟨_, isSorted_nil _, rfl⟩
    · exact ⟨_, isSorted_sortSelection _ _, rfl⟩
  refine ⟨distinct, sorted, hdistinct, hsorted, ?_⟩
  rw [shape, heq, heq']
  refine limitSelection_eq ?_ _ _
  rw [hsorted.perm.length_eq]
  exact lt_of_le_of_lt hle hlen

/-- Three amounts, one of them unknown, of two kinds. -/
def sampleAmounts : List Vector :=
  [⟨.int4, [some 1, none, some 1]⟩, ⟨.int8, [some 5, none, some 7]⟩]

end SteleDb
