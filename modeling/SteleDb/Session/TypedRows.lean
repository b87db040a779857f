import SteleDb.Exec.RowPayload
import SteleDb.Session.Conflict
import SteleDb.Session.Eras
import SteleDb.Session.Rules
import SteleDb.Storage.Contents

/-!
# Rows of the types of their tables

A row is stored as bytes; what they mean depends on the schema its table has at the instant of the
row.  A statement keeps every row readable if its writes are typed for the live schema and its
updates read rows of the live era only.

* `SessionEngine.Follows s s'` : what `s'` stores and `s` does not are rows of the types their table
  had when they were stored, and the catalog is changed after the clock's mark only;
* `SessionEngine.follows_applyBoundDml` : a write that is typed for the live schema;
* `SessionEngine.follows_applyCommand` : DDL and maintenance, whatever fails on the way.
-/

namespace SteleDb

/-! ### Rows of a type -/

/-- The types of the value columns. -/
def TableSchema.valueTypes (schema : TableSchema) : List LogicalType :=
  schema.columns.tail.map ColumnDef.ty

/-- A cell of a column: `NULL`, or the encoding of a value of its type. -/
def IsCell (ty : LogicalType) (cell : Option Bytes) : Prop :=
  ∃ value : Option ScalarValue, cell = value.map ScalarValue.encode ∧
    ∀ v, value = some v → v.logicalType = ty ∧ v.WellFormed

/-- What an update takes for the payload of a row. -/
def userPayload (validTime : Bool) (stored : Option Bytes) : Option Bytes :=
  stored.bind fun bytes =>
    match unframePayload validTime bytes with
    | .ok (_, user) => some user
    | .error _ => none

/-- What is stored is read as cells of the types. -/
def RowStored (tys : List LogicalType) (validTime : Bool) (stored : Option Bytes) : Prop :=
  ∃ cells, List.Forall₂ IsCell tys cells ∧
    decodePayload tys.length (userPayload validTime stored) = .ok cells

theorem exists_isRow {tys : List LogicalType} {cells : Cells} (h : List.Forall₂ IsCell tys cells) :
    ∃ row, IsRow tys row ∧ cells = cellsOf row := by
  induction h with
  | nil => exact ⟨[], .nil, rfl⟩
  | @cons ty cell tys cells hcell _ ih =>
    obtain ⟨value, rfl, hvalue⟩ := hcell
    obtain ⟨row, hrow, rfl⟩ := ih
    exact ⟨value :: row, .cons hvalue hrow, rfl⟩

theorem sized_of_isCell {tys : List LogicalType} {cells : Cells}
    (h : List.Forall₂ IsCell tys cells) : cells.Sized := by
  obtain ⟨row, hrow, rfl⟩ := exists_isRow h
  exact hrow.sized

/-- A row of `NULL`s is of any types. -/
theorem forall₂_isCell_null (tys : List LogicalType) :
    List.Forall₂ IsCell tys (List.replicate tys.length none) := by
  induction tys with
  | nil => exact .nil
  | cons ty tys ih => exact .cons ⟨none, rfl, fun v hv => (nomatch hv)⟩ ih

/-- Replacing a cell by one of its type. -/
theorem forall₂_isCell_set {tys : List LogicalType} {cells : Cells}
    (h : List.Forall₂ IsCell tys cells) {i : ℕ} {ty : LogicalType} {cell : Option Bytes}
    (hty : tys[i]? = some ty) (hcell : IsCell ty cell) :
    List.Forall₂ IsCell tys (cells.set i cell) := by
  induction h generalizing i with
  | nil => cases hty
  | @cons ty' cell' tys cells hhead htail ih =>
    cases i with
    | zero =>
      rw [List.getElem?_cons_zero] at hty
      cases hty
      exact .cons hcell htail
    | succ i => exact .cons hhead (ih (by simpa using hty))

/-- Cells of the types are read back; the one cell of a row with an interval must not be `NULL`. -/
theorem rowStored_framePayload {tys : List LogicalType} {cells : Cells} {validTime : Bool}
    {valid : Option ValidInterval} {stored : Option Bytes} (h : List.Forall₂ IsCell tys cells)
    (hone : valid.isSome → tys.length = 1 → ∀ cell ∈ cells, cell.isSome)
    (hframe : framePayload validTime valid (encodePayload cells) = .ok stored) :
    RowStored tys validTime stored := by
  have hlen := h.length_eq
  have hread := decodePayload_encodePayload (sized_of_isCell h)
  refine ⟨cells, h, ?_⟩
  rw [hlen]
  rcases framePayload_eq_ok.1 hframe with ⟨rfl, rfl, rfl⟩ | ⟨i, rfl, rfl, rfl⟩
  · have huser : userPayload false (encodePayload cells) = encodePayload cells := by
      rcases encodePayload cells with _ | bytes <;> rfl
    rw [huser, hread]
  · obtain ⟨framed, hf, hun⟩ := unframePayload_framePayload i (encodePayload cells)
    cases hf
    have huser : userPayload true (some (i.encodePrefix ++ (encodePayload cells).getD [])) =
        some ((encodePayload cells).getD []) := by
      rw [userPayload, Option.bind_some, hun]
    rw [huser]
    cases cells with
    | nil => rfl
    | cons cell rest =>
      cases rest with
      | nil =>
        obtain ⟨bytes, rfl⟩ := Option.isSome_iff_exists.1
          (hone rfl hlen cell List.mem_cons_self)
        rfl
      | cons cell' rest =>
        have htwo : 2 ≤ (cell :: cell' :: rest).length := by simp
        rw [encodePayload_of_two_le htwo] at hread ⊢
        exact hread

/-! ### Typed writes -/

/-- What binding a write against a schema ensures: its cells are of the types of their columns.  The
one value column of a table with a period holds the end of it, which is never `NULL`. -/
def BoundOp.Typed (schema : TableSchema) : BoundOp → Prop
  | .insert values valid => List.Forall₂ IsCell schema.valueTypes values ∧
      (valid.isSome → schema.valueTypes.length = 1 → ∀ cell ∈ values, cell.isSome)
  | .update assignments valid => assignments ≠ [] ∧
      (∀ a ∈ assignments, ∃ ty, schema.valueTypes[a.1]? = some ty ∧ IsCell ty a.2) ∧
      (valid.isSome → schema.valueTypes.length = 1 → ∀ a ∈ assignments, a.2.isSome)
  | .delete => True

/-- The write is typed for what its table resolves to at the snapshot it is bound at. -/
def BoundDml.TypedAt (c : Catalog) (snapshot : SystemTimeMicros) (dml : BoundDml) : Prop :=
  ∀ schema, c.resolve dml.table snapshot = some schema → dml.op.Typed schema

/-- The cells of an update, merged into a row. -/
theorem forall₂_isCell_merge {tys : List LogicalType} {assignments : List (ℕ × Option Bytes)}
    (ha : ∀ a ∈ assignments, ∃ ty, tys[a.1]? = some ty ∧ IsCell ty a.2) {cells : Cells}
    (h : List.Forall₂ IsCell tys cells) : List.Forall₂ IsCell tys
      (assignments.foldl (fun cells a => cells.set a.1 a.2) cells) := by
  induction assignments generalizing cells with
  | nil => exact h
  | cons a as ih =>
    obtain ⟨ty, hty, hcell⟩ := ha a List.mem_cons_self
    exact ih (fun a' ha' => ha a' (List.mem_cons_of_mem _ ha')) (forall₂_isCell_set h hty hcell)

/-- A row of one cell that is assigned holds what was assigned. -/
theorem isSome_merge {tys : List LogicalType} (hlen : tys.length = 1)
    {assignments : List (ℕ × Option Bytes)} (hne : assignments ≠ [])
    (ha : ∀ a ∈ assignments, ∃ ty, tys[a.1]? = some ty ∧ IsCell ty a.2)
    (hsome : ∀ a ∈ assignments, a.2.isSome) {cells : Cells} (hcells : cells.length = 1) :
    ∀ cell ∈ assignments.foldl (fun cells a => cells.set a.1 a.2) cells, cell.isSome := by
  have hset : ∀ a ∈ assignments, ∀ l : Cells, l.length = 1 → l.set a.1 a.2 = [a.2] := by
    intro a hmem l hl
    obtain ⟨ty, hty, -⟩ := ha a hmem
    have hzero : a.1 = 0 := by
      have hlt := (List.getElem?_eq_some_iff.1 hty).1
      omega
    obtain ⟨cell, rfl⟩ := List.length_eq_one_iff.1 hl
    rw [hzero, List.set_cons_zero]
  induction assignments generalizing cells with
  | nil => exact absurd rfl hne
  | cons a as ih =>
    rw [List.foldl_cons, hset a List.mem_cons_self cells hcells]
    by_cases has : as = []
    · rw [has]
      intro cell hcell
      rw [List.mem_singleton.1 hcell]
      exact hsome a List.mem_cons_self
    · exact ih has (fun a' ha' => ha a' (List.mem_cons_of_mem _ ha'))
        (fun a' ha' => hsome a' (List.mem_cons_of_mem _ ha')) rfl
        fun a' ha' => hset a' (List.mem_cons_of_mem _ ha')

/-! ### Eras -/

namespace Catalog.Ordered

variable {c : Catalog} {mark at_ : SystemTimeMicros} {t : Name} {schema : TableSchema}

/-- What a name resolves to from the mark on is its open version. -/
theorem open_of_resolve_from (h : c.Ordered mark) (hle : mark ≤ at_)
    (hr : c.resolve t at_ = some schema) : ∃ cur, c.openVersion t = some cur ∧
      cur.schema = schema ∧ cur.sysFrom ≤ mark ∧ at_ < systemTimeOpen := by
  rcases List.eq_nil_or_concat (c.versions t) with hnil | ⟨vs, last, hvs⟩
  · have hnone : c.resolve t at_ = none := by
      change ((((c.versions t).takeWhile _).getLast?.filter _).map _) = _
      rw [hnil]
      rfl
    rw [hnone] at hr
    cases hr
  · rw [List.concat_eq_append] at hvs
    obtain ⟨-, hfrom, hto⟩ := h.era t last (by rw [hvs]; simp)
    rw [h.resolve_of_le hvs (hfrom.trans hle)] at hr
    split_ifs at hr with hlt
    have hopen : last.sysTo = systemTimeOpen :=
      hto.resolve_right fun hto => not_lt.2 (hto.trans hle) hlt
    refine ⟨last, openVersion_eq_some.2 ⟨?_, hopen⟩, Option.some.inj hr, hfrom, hopen ▸ hlt⟩
    rw [hvs, List.getLast?_concat]

/-- From its start on a live name resolves to its open version. -/
theorem resolve_of_open (h : c.Ordered mark) {cur : SchemaVersion}
    (hcur : c.openVersion t = some cur) (hle : cur.sysFrom ≤ at_) (hlt : at_ < systemTimeOpen) :
    c.resolve t at_ = some cur.schema := by
  rw [h.resolve_of_le (versions_of_open hcur) hle, (openVersion_eq_some.1 hcur).2, if_pos hlt]

end Catalog.Ordered

namespace Catalog

variable {c c' : Catalog} {name : Name} {at_ snapshot : SystemTimeMicros} {id : SchemaId}

/-- Before it a change of a table is not seen. -/
theorem resolve_concat {us : List SchemaVersion} {v v' : SchemaVersion}
    (hfrom : v'.sysFrom = v.sysFrom) (hschema : v'.schema = v.schema)
    (hto : snapshot < v'.sysTo ↔ snapshot < v.sysTo) :
    ((((us ++ [v']).takeWhile fun w => w.sysFrom ≤ snapshot).getLast?.filter
        fun w => snapshot < w.sysTo).map SchemaVersion.schema) =
      ((((us ++ [v]).takeWhile fun w => w.sysFrom ≤ snapshot).getLast?.filter
        fun w => snapshot < w.sysTo).map SchemaVersion.schema) := by
  rw [List.takeWhile_append, List.takeWhile_append]
  split
  · by_cases hle : v.sysFrom ≤ snapshot
    · simp only [List.takeWhile_cons, List.takeWhile_nil, hfrom, hle, decide_true, if_true,
        List.getLast?_concat, Option.filter_some, hto]
      split <;> simp [hschema]
    · simp only [List.takeWhile_cons, hfrom, hle, decide_false, Bool.false_eq_true, if_false]
  · rfl

theorem resolve_createTable {columns : List ColumnDef} {validTime : Option ValidTimeSpec}
    (h : c.createTable name columns validTime at_ = .ok (c', id)) (hlt : snapshot < at_)
    (t : Name) :
    c'.resolve t snapshot = c.resolve t snapshot := by
  have hresolve : ∀ c : Catalog, c.resolve t snapshot =
      (((c.versions t).takeWhile fun v => v.sysFrom ≤ snapshot).getLast?.filter
        fun v => snapshot < v.sysTo).map SchemaVersion.schema := fun _ => rfl
  rw [hresolve, hresolve, versions_createTable h]
  split_ifs with ht
  · -- the new version starts later
    subst ht
    rw [List.takeWhile_append]
    split
    · next hall =>
      have hself := List.takeWhile_prefix (l := c.versions name) fun v =>
        decide (v.sysFrom ≤ snapshot)
      rw [hself.eq_of_length hall]
      simp [not_le.2 hlt]
    · rfl
  · rfl

theorem resolve_dropTable (h : c.dropTable name at_ = .ok (c', id)) (hlt : snapshot < at_)
    (t : Name) : c'.resolve t snapshot = c.resolve t snapshot := by
  have hresolve : ∀ c : Catalog, c.resolve t snapshot =
      (((c.versions t).takeWhile fun v => v.sysFrom ≤ snapshot).getLast?.filter
        fun v => snapshot < v.sysTo).map SchemaVersion.schema := fun _ => rfl
  obtain ⟨current, hcur, hat, -, -⟩ := dropTable_ok h
  rw [hresolve, hresolve, versions_dropTable hcur h]
  split_ifs with ht
  · subst ht
    have hopen : snapshot < current.sysTo := by
      rw [(openVersion_eq_some.1 hcur).2]
      exact hlt.trans hat
    refine (resolve_concat (v := current) ?_ ?_ ?_).trans ?_
    · rfl
    · rfl
    · exact iff_of_true hlt hopen
    · rw [← versions_of_open hcur]
  · rfl

end Catalog

namespace SessionEngine

variable {s s' s'' : SessionEngine}

/-! ### What a step adds -/

/-- A version of the table is not later than the clock's mark, and is a row of the types that the
table has at its instant. -/
def Admits (s : SessionEngine) (table : Name) (validTime : Bool) (v : Version) : Prop :=
  v.sysFrom ≤ s.clock.highWater ∧ ∃ schema, s.catalog.resolve table v.sysFrom = some schema ∧
    RowStored schema.valueTypes validTime v.payload

/-- From `s` to `s'` the clock does not go back, what names resolved to up to its mark stays, and
the versions that come into the tables are rows of their types. -/
structure Follows (s s' : SessionEngine) : Prop where
  clock : s.clock.highWater ≤ s'.clock.highWater
  ordered : s.catalog.Ordered s.clock.highWater → s'.catalog.Ordered s'.clock.highWater
  resolve : ∀ t at_, at_ ≤ s.clock.highWater → s'.catalog.resolve t at_ = s.catalog.resolve t at_
  tables : ∀ (t : Name) st', s'.tables[t]? = some st' →
    (∃ st : TableState, s.tables[t]? = some st ∧ st'.validTime = st.validTime ∧
      Engine.Gains (s'.Admits t st'.validTime) st.engine st'.engine) ∨
    st'.engine.writer.validTime = st'.validTime ∧
      ∀ v, st'.engine.Contains v → s'.Admits t st'.validTime v

/-- What is admitted stays admitted. -/
theorem Admits.follows {t : Name} {validTime : Bool} {v : Version} (h : s.Admits t validTime v)
    (hclock : s.clock.highWater ≤ s'.clock.highWater)
    (hresolve : ∀ t at_, at_ ≤ s.clock.highWater →
      s'.catalog.resolve t at_ = s.catalog.resolve t at_) : s'.Admits t validTime v := by
  obtain ⟨hle, schema, hschema, hrow⟩ := h
  exact ⟨hle.trans hclock, schema, (hresolve t _ hle).trans hschema, hrow⟩

namespace Follows

/-- The catalog stays, and tables are replaced by tables that hold more. -/
theorem of_catalog (hclock : s.clock.highWater ≤ s'.clock.highWater)
    (hcatalog : s'.catalog = s.catalog)
    (htables : ∀ (t : Name) st', s'.tables[t]? = some st' →
      ∃ st : TableState, s.tables[t]? = some st ∧ st'.validTime = st.validTime ∧
        Engine.Gains (s'.Admits t st'.validTime) st.engine st'.engine) : Follows s s' where
  clock := hclock
  ordered ho := by
    rw [hcatalog]
    exact ho.mono hclock
  resolve t at_ _ := by rw [hcatalog]
  tables t st' ht := .inl (htables t st' ht)

/-- Catalog and tables stay. -/
theorem of_tables (hclock : s.clock.highWater ≤ s'.clock.highWater)
    (hcatalog : s'.catalog = s.catalog) (htables : s'.tables = s.tables) : Follows s s' :=
  of_catalog hclock hcatalog fun t st' ht =>
    ⟨st', by rw [← htables]; exact ht, rfl, .refl st'.engine⟩

theorem refl (s : SessionEngine) : Follows s s := of_tables le_rfl rfl rfl

theorem trans (h : Follows s s') (h' : Follows s' s'') : Follows s s'' where
  clock := h.clock.trans h'.clock
  ordered ho := h'.ordered (h.ordered ho)
  resolve t at_ hle := (h'.resolve t at_ (hle.trans h.clock)).trans (h.resolve t at_ hle)
  tables t st'' ht := by
    rcases h'.tables t st'' ht with ⟨st', hst', hv', hgains'⟩ | hnew
    · have hlater : ∀ v, s'.Admits t st'.validTime v → s''.Admits t st''.validTime v := by
        intro v hadmit
        rw [hv']
        exact hadmit.follows h'.clock h'.resolve
      rcases h.tables t st' hst' with ⟨st, hst, hv, hgains⟩ | ⟨hpolicy, hnew⟩
      · exact .inl ⟨st, hst, hv'.trans hv, (hgains.weaken hlater).trans hgains'⟩
      · refine .inr ⟨hgains'.validTime.trans (hpolicy.trans hv'.symm), fun v hcontains => ?_⟩
        exact (hgains'.contains v hcontains).elim (fun hold => hlater v (hnew v hold)) id
    · exact .inr hnew

end Follows

/-- Every row is of the types its table had when it was stored. -/
def RowsTyped (s : SessionEngine) : Prop :=
  ∀ (t : Name) (st : TableState) v, s.tables[t]? = some st → st.engine.Contains v →
    ∃ schema, s.catalog.resolve t v.sysFrom = some schema ∧
      RowStored schema.valueTypes st.validTime v.payload

/-- The schema versions are in order, the tables have the policies they were opened with, and the
rows are of their types. -/
structure Incarnated (s : SessionEngine) : Prop where
  ordered : s.catalog.Ordered s.clock.highWater
  policy : ∀ (t : Name) (st : TableState), s.tables[t]? = some st →
    st.engine.writer.validTime = st.validTime
  admits : ∀ (t : Name) (st : TableState) v, s.tables[t]? = some st → st.engine.Contains v →
    s.Admits t st.validTime v

namespace Incarnated

theorem rowsTyped (h : s.Incarnated) : s.RowsTyped :=
  fun t st v hst hv => (h.admits t st v hst hv).2

theorem follows (h : s.Incarnated) (hf : Follows s s') : s'.Incarnated where
  ordered := hf.ordered h.ordered
  policy t st' hst' := by
    rcases hf.tables t st' hst' with ⟨st, hst, hv, hgains⟩ | ⟨hpolicy, -⟩
    · rw [hgains.validTime, hv, h.policy t st hst]
    · exact hpolicy
  admits t st' v hst' hcontains := by
    rcases hf.tables t st' hst' with ⟨st, hst, hv, hgains⟩ | ⟨-, hnew⟩
    · rcases hgains.contains v hcontains with hold | hadmit
      · rw [hv]
        exact (h.admits t st v hst hold).follows hf.clock hf.resolve
      · exact hadmit
    · exact hnew v hcontains

theorem opened (inner : ℕ → SystemTimeMicros) : (SessionEngine.opened inner).Incarnated where
  ordered := .empty _
  policy t st hst := by
    rw [show (SessionEngine.opened inner).tables = ∅ from rfl] at hst
    simp at hst
  admits t st v hst := by
    rw [show (SessionEngine.opened inner).tables = ∅ from rfl] at hst
    simp at hst

end Incarnated

/-! ### Point writes -/

theorem follows_setEngine {table : Name} {st : TableState} {e : Engine}
    (hst : s.tables[table]? = some st)
    (he : Engine.Gains (s.Admits table st.validTime) st.engine e) :
    Follows s (s.setEngine table st e) := by
  refine .of_catalog le_rfl rfl fun t st' ht => ?_
  rw [setEngine, OrdMap.getElem?_insert] at ht
  split_ifs at ht with heq
  · subst heq
    cases ht
    exact ⟨st, hst, rfl, he⟩
  · exact ⟨st', ht, rfl, .refl st'.engine⟩

/-- What a table that can be written is. -/
theorem tableMut_ok {table : Name} {st : TableState} (h : s.tableMut table = .ok st) :
    s.tables[table]? = some st ∧ (s.catalog.resolve table s.clock.highWater).isSome := by
  unfold tableMut at h
  split_ifs at h with hlive
  rcases hst : s.tables[table]? with _ | st'
  · simp only [hst] at h
    cases h
  · simp only [hst] at h
    cases h
    refine ⟨rfl, ?_⟩
    rw [Option.isNone_iff_eq_none] at hlive
    exact Option.isSome_iff_ne_none.2 hlive

/-- Storing under a table what changes nothing in it. -/
theorem follows_tableMut {table : Name} {st : TableState} {e : Engine}
    (h : s.tableMut table = .ok st)
    (he : ∀ P : Version → Prop, Engine.Gains P st.engine e) : Follows s (s.setEngine table st e) :=
  follows_setEngine (tableMut_ok h).1 (he _)

theorem follows_observe (s : SessionEngine) : Follows s s.observe :=
  .of_tables (quiet_observe s).clock rfl rfl

theorem follows_tick (s : SessionEngine) : Follows s s.tick :=
  .of_tables (quiet_tick s).clock rfl rfl

theorem readsClock_of_stores {op : DmlOp} {validTime : Bool} {stored : Option Bytes}
    (h : op.Stores validTime stored) : op.readsClock validTime = true := by
  cases op with
  | insert valid payload seq => rw [DmlOp.readsClock, show framePayload _ _ _ = _ from h]; rfl
  | update valid payload seq => rw [DmlOp.readsClock, show framePayload _ _ _ = _ from h]; rfl
  | delete => exact h.elim

/-- A write of a row that is of the types of the live schema. -/
theorem follows_write (hs : s.Incarnated) {table : Name} (key : BusinessKey) {op : DmlOp}
    (txnId : TxnId) (principal : Bytes)
    (hop : ∀ schema st stored, s.catalog.resolve table s.clock.highWater = some schema →
      s.tables[table]? = some st → op.Stores st.validTime stored →
      RowStored schema.valueTypes st.validTime stored) :
    Follows s (s.write table key op txnId principal).1 := by
  unfold write
  split
  · exact .refl s
  split
  · exact .refl s
  split
  · exact .refl s
  rename_i st hst
  obtain ⟨htable, hlive⟩ := tableMut_ok hst
  obtain ⟨schema, hschema⟩ := Option.isSome_iff_exists.1 hlive
  dsimp only
  -- the clock is read if there is something to store
  have hclock : Follows s (if op.readsClock st.engine.writer.validTime then s.tick else s) := by
    split
    · exact follows_tick s
    · exact .refl s
  generalize hs₁ : (if op.readsClock st.engine.writer.validTime then s.tick else s) = s₁ at hclock
  have htable₁ : s₁.tables[table]? = some st := by
    rw [← hs₁]
    split <;> exact htable
  have hgains := st.engine.gains_write ⟨s.clock.now.2, key, txnId, principal, op⟩
  have hadmit : Engine.Gains (s₁.Admits table st.validTime) st.engine
      (st.engine.write ⟨s.clock.now.2, key, txnId, principal, op⟩).1 := by
    refine hgains.weaken fun v hv => ?_
    obtain ⟨hfrom, hlt, hstores⟩ := hv
    have hreads := readsClock_of_stores hstores
    rw [hs.policy table st htable] at hstores
    obtain ⟨cur, hcur, rfl, hcurfrom, -⟩ := hs.ordered.open_of_resolve_from le_rfl hschema
    rw [if_pos hreads] at hs₁
    subst hs₁
    refine ⟨hfrom.le, cur.schema, ?_, hop _ _ _ hschema htable hstores⟩
    rw [hfrom]
    exact hs.ordered.resolve_of_open hcur (hcurfrom.trans s.clock.le_now) hlt
  rcases hw : st.engine.write ⟨s.clock.now.2, key, txnId, principal, op⟩ with ⟨e, err | _⟩
  all_goals
    rw [hw] at hadmit
    exact hclock.trans (follows_setEngine htable₁ hadmit)

/-- An update finds a row of the live era of its table, or none: none that a failed drop has left
open. -/
def OwnRow (s : SessionEngine) (dml : BoundDml) : Prop :=
  match dml.op with
  | .update .. => ∀ (st : TableState) v cur, s.tables[dml.table]? = some st →
      st.engine.asOf dml.key s.clock.current = some v →
      s.catalog.openVersion dml.table = some cur → cur.sysFrom ≤ v.sysFrom
  | _ => True

/-- The write is typed for what its table resolves to from now on. -/
def TypedNow (s : SessionEngine) (dml : BoundDml) : Prop :=
  ∀ at_, s.clock.highWater ≤ at_ → dml.TypedAt s.catalog at_

theorem TypedNow.later {dml : BoundDml} (h : s.TypedNow dml) (hcatalog : s'.catalog = s.catalog)
    (hclock : s.clock.highWater ≤ s'.clock.highWater) : s'.TypedNow dml := fun at_ hat => by
  rw [hcatalog]
  exact h at_ (hclock.trans hat)

theorem valueColumnCount_eq {table : Name} {count : ℕ} {schema : TableSchema}
    (h : s.valueColumnCount table = .ok count)
    (hschema : s.catalog.resolve table s.clock.highWater = some schema) :
    count = schema.valueTypes.length := by
  unfold valueColumnCount at h
  rw [show s.clock.current = s.clock.highWater from rfl, hschema] at h
  cases h
  rw [TableSchema.valueTypes, List.length_map, List.length_tail]

/-- The live row of a key, as an update reads it. -/
theorem isCell_liveValueCells (hs : s.Incarnated) {table : Name} {key : BusinessKey}
    {cells : Cells} {schema : TableSchema}
    (hschema : s.catalog.resolve table s.clock.highWater = some schema)
    (hown : ∀ (st : TableState) v cur, s.tables[table]? = some st →
      st.engine.asOf key s.clock.current = some v →
      s.catalog.openVersion table = some cur → cur.sysFrom ≤ v.sysFrom)
    (h : s.liveValueCells table key schema.valueTypes.length = .ok cells) :
    List.Forall₂ IsCell schema.valueTypes cells := by
  obtain ⟨cur, hcur, rfl, -, hlt⟩ := hs.ordered.open_of_resolve_from le_rfl hschema
  unfold liveValueCells at h
  split_ifs at h with hzero
  · cases h
    rw [List.length_eq_zero_iff.1 hzero]
    exact .nil
  rcases hst : s.tables[table]? with _ | st
  · simp only [hst] at h
    cases h
  simp only [hst] at h
  have hread : decodePayload cur.schema.valueTypes.length (userPayload st.validTime
      ((st.engine.asOf key s.clock.current).bind Version.payload)) = .ok cells := by
    split at h
    · next hd =>
      cases h
      exact hd
    · cases h
  rcases hv : st.engine.asOf key s.clock.current with _ | v
  · -- no row: every cell is `NULL`
    have hnull : ∀ n : ℕ, n ≠ 0 → decodePayload n none = .ok (List.replicate n none) := by
      intro n hn
      rcases n with _ | _ | n
      · exact absurd rfl hn
      · rfl
      · rfl
    rw [hv, Option.bind_none, userPayload, Option.bind_none, hnull _ hzero] at hread
    cases hread
    exact forall₂_isCell_null _
  · obtain ⟨raw, hraw, hfrom, hpayload, hle⟩ := Engine.contains_asOf hv
    obtain ⟨-, schema', hschema', cells', hcells', hread'⟩ := hs.admits table st raw hst hraw
    have hera : cur.sysFrom ≤ raw.sysFrom := hfrom ▸ hown st v cur hst hv hcur
    have hraw' : raw.sysFrom < systemTimeOpen := hfrom ▸ hle.trans_lt hlt
    rw [hs.ordered.resolve_of_open hcur hera hraw'] at hschema'
    cases hschema'
    rw [hv, Option.bind_some, ← hpayload, hread'] at hread
    cases hread
    exact hcells'

/-- A resolved write stores rows of the types of the live schema. -/
theorem rowStored_of_resolveDml (hs : s.Incarnated) {dml : BoundDml} {op : DmlOp}
    (hop : s.resolveDml dml = .ok op) (htyped : s.TypedNow dml) (hown : s.OwnRow dml)
    {schema : TableSchema} (hschema : s.catalog.resolve dml.table s.clock.highWater = some schema)
    {validTime : Bool} {stored : Option Bytes} (hstores : op.Stores validTime stored) :
    RowStored schema.valueTypes validTime stored := by
  have htyped' := htyped _ le_rfl schema hschema
  unfold resolveDml at hop
  unfold OwnRow at hown
  rcases hdml : dml.op with ⟨values, valid⟩ | ⟨assignments, valid⟩ | _
  · simp only [hdml] at hop
    rw [hdml] at htyped'
    obtain ⟨hcells, hone⟩ := htyped'
    rcases hcount : s.valueColumnCount dml.table with e | count
    · simp only [hcount] at hop
      cases hop
    simp only [hcount] at hop
    split_ifs at hop with hne
    cases hop
    exact rowStored_framePayload hcells hone hstores
  · simp only [hdml] at hop hown
    rw [hdml] at htyped'
    obtain ⟨hne, hassign, hsome⟩ := htyped'
    rcases hcount : s.valueColumnCount dml.table with e | count
    · simp only [hcount] at hop
      cases hop
    obtain rfl := valueColumnCount_eq hcount hschema
    simp only [hcount] at hop
    split at hop
    · cases hop
    rcases hlive : s.liveValueCells dml.table dml.key schema.valueTypes.length with e | cells
    · simp only [hlive] at hop
      cases hop
    simp only [hlive] at hop
    cases hop
    have hcells := isCell_liveValueCells hs hschema hown hlive
    refine rowStored_framePayload (forall₂_isCell_merge hassign hcells) ?_ hstores
    exact fun hvalid hlen => isSome_merge hlen hne hassign (hsome hvalid hlen)
      (hcells.length_eq.symm.trans hlen)
  · simp only [hdml] at hop
    cases hop
    exact hstores.elim

theorem catalog_applyBoundDml (s : SessionEngine) (dml : BoundDml) (txnId : TxnId)
    (principal : Bytes) : (s.applyBoundDml dml txnId principal).1.catalog = s.catalog :=
  catalog_of_rules (rules_applyBoundDml s dml txnId principal)

/-- **A write that is typed for the live schema**, and updates no row of an earlier era. -/
theorem follows_applyBoundDml (hs : s.Incarnated) {dml : BoundDml} (txnId : TxnId)
    (principal : Bytes) (htyped : s.TypedNow dml) (hown : s.OwnRow dml) :
    Follows s (s.applyBoundDml dml txnId principal).1 := by
  unfold applyBoundDml
  rcases hop : s.resolveDml dml with e | op
  · exact .refl s
  have hw : Follows s (s.write dml.table dml.key op txnId principal).1 :=
    follows_write hs dml.key txnId principal fun schema st stored hschema _ hstores =>
      rowStored_of_resolveDml hs hop htyped hown hschema hstores
  dsimp only
  rcases hr : s.write dml.table dml.key op txnId principal with ⟨s₁, e | _⟩
  all_goals
    rw [hr] at hw
  · exact hw
  · exact hw.trans (.of_tables le_rfl rfl rfl)

/-! ### Groups -/

theorem follows_takeTxnId (s : SessionEngine) : Follows s s.takeTxnId := .of_tables le_rfl rfl rfl

theorem follows_touch {touched touched' : List Name} {table : Name}
    (h : s.touch touched table = .ok (s', touched')) : Follows s s' := by
  unfold touch at h
  split at h
  · cases h
    exact .refl s
  · split at h
    · cases h
    · next st hst =>
      cases h
      exact follows_tableMut hst fun P => st.engine.gains_beginGroup

theorem follows_abortGroup (s : SessionEngine) (table : Name) : Follows s (s.abortGroup table) := by
  unfold abortGroup
  split
  · exact .refl s
  · next st hst => exact follows_tableMut hst fun P => st.engine.gains_abortGroup

theorem follows_abortGroups (s : SessionEngine) (touched : List Name) :
    Follows s (s.abortGroups touched) := by
  induction touched generalizing s with
  | nil => exact .refl s
  | cons t ts ih => exact (follows_abortGroup s t).trans (ih _)

theorem follows_commitLeg (s : SessionEngine) (txnId : TxnId) (table : Name) :
    Follows s (s.commitLeg txnId table).1 := by
  unfold commitLeg
  rcases hst : s.tableMut table with e | st
  · exact .refl s
  have hfinish := fun P => st.engine.gains_finishGroup (P := P) (some txnId)
  dsimp only
  rcases hf : st.engine.finishGroup (some txnId) with ⟨e, err | _⟩
  all_goals
    rw [hf] at hfinish
    exact follows_tableMut hst hfinish

theorem follows_commitLegs (txnId : TxnId) (s : SessionEngine) (tables : List Name) :
    Follows s (commitLegs txnId s tables).1 := by
  induction tables generalizing s with
  | nil => exact .refl s
  | cons t ts ih =>
    have hleg := follows_commitLeg s txnId t
    rw [commitLegs]
    rcases hl : s.commitLeg txnId t with ⟨s₁, e | _⟩
    all_goals
      rw [hl] at hleg
    · exact hleg.trans (follows_abortGroups ..)
    · exact hleg.trans (ih _)

theorem follows_recordCommit (s : SessionEngine) (txnId : TxnId) :
    Follows s (s.recordCommit txnId).1 := by
  unfold recordCommit
  split <;> exact .of_tables le_rfl rfl rfl

theorem follows_finishGroupCommit (s : SessionEngine) (txnId : TxnId) (touched : List Name) :
    Follows s (s.finishGroupCommit txnId touched).1 := by
  unfold finishGroupCommit
  split
  · exact .refl s
  have hlegs := follows_commitLegs txnId s touched
  rcases hl : commitLegs txnId s touched with ⟨s₁, e | _⟩
  all_goals
    rw [hl] at hlegs
  · exact hlegs
  · exact hlegs.trans (follows_recordCommit ..)

theorem follows_pruneWriteIndex (s : SessionEngine) : Follows s s.pruneWriteIndex := by
  unfold pruneWriteIndex
  split
  · exact .of_tables le_rfl rfl rfl
  · split
    · exact .of_tables le_rfl rfl rfl
    · exact .refl s

/-- No update of the group, as it is applied, finds a row of an earlier era. -/
def OwnRows (txnId : TxnId) (principal : Bytes) :
    SessionEngine → List Name → List BoundDml → Prop
  | _, _, [] => True
  | s, touched, dml :: dmls =>
    match s.touch touched dml.table with
    | .error _ => True
    | .ok (s, touched) => s.OwnRow dml ∧
      match s.applyBoundDml dml txnId principal with
      | (_, .error _) => True
      | (s, .ok ()) => OwnRows txnId principal s touched dmls

theorem catalog_touch {touched touched' : List Name} {table : Name}
    (h : s.touch touched table = .ok (s', touched')) : s'.catalog = s.catalog :=
  catalog_of_rules (rules_touch h)

/-- **The writes of a group.** -/
theorem follows_applyGroup (txnId : TxnId) (principal : Bytes) {touched : List Name}
    {dmls : List BoundDml} (hs : s.Incarnated) (htyped : ∀ dml ∈ dmls, s.TypedNow dml)
    (hown : OwnRows txnId principal s touched dmls) :
    Follows s (applyGroup txnId principal s touched dmls).1 := by
  induction dmls generalizing s touched with
  | nil => exact .refl s
  | cons dml dmls ih =>
    rw [applyGroup]
    rw [OwnRows] at hown
    rcases htouch : s.touch touched dml.table with e | ⟨s₁, touched₁⟩
    · exact .refl s
    simp only [htouch] at hown ⊢
    have h₁ := follows_touch htouch
    have hcat₁ := catalog_touch htouch
    have htyped₁ := (htyped dml List.mem_cons_self).later hcat₁ h₁.clock
    have h₂ := follows_applyBoundDml (hs.follows h₁) txnId principal htyped₁ hown.1
    have hcat₂ := catalog_applyBoundDml s₁ dml txnId principal
    rcases h : s₁.applyBoundDml dml txnId principal with ⟨s₂, e | _⟩
    all_goals
      rw [h] at h₂ hcat₂
    · exact h₁.trans h₂
    · have hrest := hown.2
      rw [h] at hrest
      have h₁₂ := h₁.trans h₂
      refine h₁₂.trans (ih (hs.follows h₁₂) (fun dml' hmem => ?_) hrest)
      exact (htyped dml' (List.mem_cons_of_mem _ hmem)).later (hcat₂.trans hcat₁) h₁₂.clock

theorem follows_runGroup (hs : s.Incarnated) {dmls : List BoundDml}
    (htyped : ∀ dml ∈ dmls, s.TypedNow dml)
    (hown : OwnRows s.nextTxn s.writePrincipal s.takeTxnId [] dmls) :
    Follows s (s.runGroup dmls).1 := by
  have htake := follows_takeTxnId s
  have hgroup := htake.trans
    (follows_applyGroup s.nextTxn s.writePrincipal (hs.follows htake) htyped hown)
  unfold runGroup
  rcases h : applyGroup s.nextTxn s.writePrincipal s.takeTxnId [] dmls with ⟨s₁, touched, e | _⟩
  all_goals
    rw [h] at hgroup
  · exact hgroup.trans (follows_abortGroups ..)
  · exact hgroup.trans (follows_finishGroupCommit ..)

theorem follows_applyWriteGroup (hs : s.Incarnated) {dmls : List BoundDml}
    (htyped : ∀ dml ∈ dmls, s.TypedNow dml)
    (hown : OwnRows s.nextTxn s.writePrincipal s.takeTxnId [] dmls) :
    Follows s (s.applyWriteGroup dmls).1 := by
  unfold applyWriteGroup
  split_ifs
  · exact .refl s
  · exact (follows_runGroup hs htyped hown).trans (follows_pruneWriteIndex _)

theorem follows_executeDml (hs : s.Incarnated) {stmt : DmlStatement}
    (htyped : ∀ dml ∈ stmt.writes, s.observe.TypedNow dml)
    (hown : OwnRows s.nextTxn s.writePrincipal s.observe.takeTxnId [] stmt.writes) :
    Follows s (s.executeDml stmt).1 := by
  have hobserve := follows_observe s
  have hs₁ := hs.follows hobserve
  unfold executeDml
  split
  · exact hobserve
  split
  · exact hobserve
  cases stmt with
  | point dml =>
    have hrun := hobserve.trans (follows_runGroup hs₁ htyped hown)
    dsimp only
    unfold applyDml
    rcases h : s.observe.runGroup [dml] with ⟨s₁, e | _⟩
    all_goals
      rw [show DmlStatement.writes (.point dml) = [dml] from rfl, h] at hrun
    · exact hrun
    · exact hrun.trans (follows_pruneWriteIndex _)
  | rows dmls => exact hobserve.trans (follows_applyWriteGroup hs₁ htyped hown)

/-! ### Bulk loads -/

/-- The rows of a chunk are rows of the load. -/
theorem mem_of_mem_toChunks {α : Type*} {n : ℕ} {rows chunk : List α}
    (hchunk : chunk ∈ rows.toChunks n) {x : α} (hx : x ∈ chunk) : x ∈ rows := by
  have hgo : ∀ (m : ℕ) (l : List α) (acc : Array α) (done : Array (List α)),
      chunk ∈ List.toChunks.go m l acc done →
        chunk ∈ done.toList ∨ ∀ y ∈ chunk, y ∈ acc.toList ∨ y ∈ l := by
    intro m l
    induction l with
    | nil =>
      intro acc done h
      rw [List.toChunks.go, Array.toList_push, List.mem_append, List.mem_singleton] at h
      rcases h with hdone | hlast
      · exact .inl hdone
      · exact .inr fun y hy => .inl (hlast ▸ hy)
    | cons a l ih =>
      intro acc done h
      rw [List.toChunks.go] at h
      split at h
      · -- a chunk is full, and `a` starts the next one
        rcases ih _ _ h with hdone | hrest
        · rw [Array.toList_push, List.mem_append, List.mem_singleton] at hdone
          rcases hdone with hdone | hlast
          · exact .inl hdone
          · exact .inr fun y hy => .inl (hlast ▸ hy)
        · refine .inr fun y hy => ?_
          rcases hrest y hy with hacc | hl
          · rw [Array.toList_push, List.mem_append, List.mem_singleton] at hacc
            rcases hacc with hempty | rfl
            · cases hempty
            · exact .inr List.mem_cons_self
          · exact .inr (List.mem_cons_of_mem _ hl)
      · rcases ih _ _ h with hdone | hrest
        · exact .inl hdone
        · refine .inr fun y hy => ?_
          rcases hrest y hy with hacc | hl
          · rw [Array.toList_push, List.mem_append, List.mem_singleton] at hacc
            rcases hacc with hold | rfl
            · exact .inl hold
            · exact .inr List.mem_cons_self
          · exact .inr (List.mem_cons_of_mem _ hl)
  cases rows with
  | nil =>
    rw [List.toChunks] at hchunk
    cases hchunk
  | cons a l =>
    cases n with
    | zero =>
      have hall : (a :: l).toChunks 0 = [a :: l] := rfl
      rw [hall, List.mem_singleton] at hchunk
      exact hchunk ▸ hx
    | succ n =>
      have hgo' : (a :: l).toChunks (n + 1) = List.toChunks.go (n + 1) l #[a] #[] := rfl
      rw [hgo'] at hchunk
      rcases hgo _ _ _ _ hchunk with hdone | hrest
      · cases hdone
      · simpa using hrest x hx

/-- Rows that all bind. -/
theorem mem_of_mapM_some {α : Type*} {l : List (Option α)} {l' : List α}
    (h : (l.mapM fun row => row) = some l') {x : α} (hx : x ∈ l') : some x ∈ l := by
  induction l generalizing l' with
  | nil =>
    cases h
    cases hx
  | cons row l ih =>
    rw [List.mapM_cons, Option.bind_eq_bind, Option.bind_eq_some_iff] at h
    obtain ⟨y, rfl, h⟩ := h
    rw [Option.bind_eq_bind, Option.bind_eq_some_iff] at h
    obtain ⟨l₁, hl₁, h⟩ := h
    cases h
    rcases List.mem_cons.1 hx with rfl | hx
    · exact List.mem_cons_self
    · exact List.mem_cons_of_mem _ (ih hl₁ hx)

theorem follows_applyAll (txnId : TxnId) (principal : Bytes) {table : Name} {rows : List CopyRow}
    (hs : s.Incarnated) (htyped : ∀ row ∈ rows, s.TypedNow (row.dml table)) :
    Follows s (applyAll txnId principal s (rows.map (CopyRow.dml table))).1 ∧
      (applyAll txnId principal s (rows.map (CopyRow.dml table))).1.catalog = s.catalog := by
  induction rows generalizing s with
  | nil => exact ⟨.refl s, rfl⟩
  | cons row rows ih =>
    rw [List.map_cons, applyAll]
    have h₁ := follows_applyBoundDml hs txnId principal (htyped row List.mem_cons_self) trivial
    have hcat := catalog_applyBoundDml s (row.dml table) txnId principal
    rcases h : s.applyBoundDml (row.dml table) txnId principal with ⟨s₁, e | _⟩
    all_goals
      rw [h] at h₁ hcat
    · exact ⟨h₁, hcat⟩
    · obtain ⟨hf, hc⟩ := ih (hs.follows h₁) fun row' hmem =>
        (htyped row' (List.mem_cons_of_mem _ hmem)).later hcat h₁.clock
      exact ⟨h₁.trans hf, hc.trans hcat⟩

theorem follows_commitBulkChunk (s : SessionEngine) (txnId : TxnId) (table : Name) :
    Follows s (s.commitBulkChunk txnId table).1 ∧
      (s.commitBulkChunk txnId table).1.catalog = s.catalog := by
  unfold commitBulkChunk
  rcases hst : s.tableMut table with e | st
  · exact ⟨.refl s, rfl⟩
  have hchunk := fun P => st.engine.gains_commitBulkChunk (P := P) txnId
  dsimp only
  rcases hf : st.engine.commitBulkChunk txnId with ⟨e, err | _⟩
  all_goals
    rw [hf] at hchunk
    exact ⟨follows_tableMut hst hchunk, rfl⟩

theorem follows_bulkCopyChunks (txnId : TxnId) (principal : Bytes) (table : Name)
    {chunks : List (List (Option CopyRow))} (hs : s.Incarnated)
    (htyped : ∀ chunk ∈ chunks, ∀ row, some row ∈ chunk → s.TypedNow (row.dml table)) :
    Follows s (bulkCopyChunks txnId principal table s chunks).1 := by
  induction chunks generalizing s with
  | nil => exact .refl s
  | cons chunk chunks ih =>
    rw [bulkCopyChunks]
    rcases hrows : chunk.mapM fun row => row with _ | rows
    · exact .refl s
    have hchunk : ∀ row ∈ rows, s.TypedNow (row.dml table) := fun row hmem =>
      htyped chunk List.mem_cons_self row (mem_of_mapM_some hrows hmem)
    obtain ⟨h₁, hcat₁⟩ := follows_applyAll txnId principal hs hchunk
    dsimp only
    rcases ha : applyAll txnId principal s (rows.map (CopyRow.dml table)) with ⟨s₁, e | _⟩
    all_goals
      rw [ha] at h₁ hcat₁
    · exact h₁
    obtain ⟨h₂, hcat₂⟩ := follows_commitBulkChunk s₁ txnId table
    dsimp only
    rcases hc : s₁.commitBulkChunk txnId table with ⟨s₂, e | _⟩
    all_goals
      rw [hc] at h₂ hcat₂
    · exact h₁.trans h₂
    have h₃ := (h₁.trans h₂).trans (follows_pruneWriteIndex s₂)
    have hcat₃ : s₂.pruneWriteIndex.catalog = s.catalog :=
      (catalog_of_rules (rules_pruneWriteIndex s₂)).trans (hcat₂.trans hcat₁)
    refine h₃.trans (ih (hs.follows h₃) fun chunk' hmem row hrow => ?_)
    exact (htyped chunk' (List.mem_cons_of_mem _ hmem) row hrow).later hcat₃ h₃.clock

theorem follows_bulkCopyApply (hs : s.Incarnated) {table : Name} {rows : List (Option CopyRow)}
    (htyped : ∀ row, some row ∈ rows → s.TypedNow (row.dml table)) :
    Follows s (s.bulkCopyApply table rows).1 := by
  unfold bulkCopyApply
  rcases hst : s.tableMut table with e | st
  · exact .refl s
  have hflush := fun P => st.engine.gains_flush (P := P)
  dsimp only
  rcases hf : st.engine.flush with ⟨e, err | _⟩
  all_goals
    rw [hf] at hflush
  · exact follows_tableMut hst hflush
  have h₁ : Follows s (s.setEngine table st e.beginBulkGroup).takeTxnId :=
    (follows_tableMut hst fun P => (hflush P).trans e.gains_beginBulkGroup).trans
      (follows_takeTxnId _)
  have hchunks : ∀ chunk ∈ rows.toChunks bulkCopyChunkRows, ∀ row, some row ∈ chunk →
      (s.setEngine table st e.beginBulkGroup).takeTxnId.TypedNow (row.dml table) :=
    fun chunk hchunk row hrow => htyped row (mem_of_mem_toChunks hchunk hrow)
  have h₂ := h₁.trans
    (follows_bulkCopyChunks s.nextTxn s.writePrincipal table (hs.follows h₁) hchunks)
  dsimp only
  rcases hc : bulkCopyChunks s.nextTxn s.writePrincipal table
    (s.setEngine table st e.beginBulkGroup).takeTxnId (rows.toChunks bulkCopyChunkRows) with
    ⟨s₂, err | _⟩
  all_goals
    rw [hc] at h₂
  · exact (h₂.trans (follows_abortGroup s₂ table)).trans (follows_pruneWriteIndex _)
  dsimp only
  rcases hst₂ : s₂.tableMut table with err | st₂
  · exact h₂
  have h₃ := (h₂.trans (follows_tableMut hst₂ fun P => st₂.engine.gains_endBulkGroup)).trans
    (follows_recordCommit _ s.nextTxn)
  dsimp only
  rcases hr : (s₂.setEngine table st₂ st₂.engine.endBulkGroup).recordCommit s.nextTxn with
    ⟨s₃, err | _⟩
  all_goals
    rw [hr] at h₃
  · exact h₃
  · exact h₃.trans (follows_pruneWriteIndex _)

/-- A group of inserts updates no row. -/
theorem ownRows_of_rows (txnId : TxnId) (principal : Bytes) (table : Name) (rows : List CopyRow)
    (touched : List Name) : OwnRows txnId principal s touched (rows.map (CopyRow.dml table)) := by
  induction rows generalizing s touched with
  | nil => trivial
  | cons row rows ih =>
    rw [List.map_cons, OwnRows]
    split
    · trivial
    · refine ⟨trivial, ?_⟩
      split
      · trivial
      · exact ih _

theorem follows_copyApply (hs : s.Incarnated) {table : Name} {rows : List (Option CopyRow)}
    (htyped : ∀ row, some row ∈ rows → s.observe.TypedNow (row.dml table)) :
    Follows s (s.copyApply table rows).1 := by
  have hobserve := follows_observe s
  have hs₁ := hs.follows hobserve
  unfold copyApply
  split
  · exact .refl s
  split
  · exact .refl s
  split_ifs
  · exact hobserve
  · rcases hrows : rows.mapM fun row => row with _ | bound
    · exact hobserve
    refine hobserve.trans (follows_applyWriteGroup hs₁ ?_ (ownRows_of_rows ..))
    intro dml hdml
    obtain ⟨row, hrow, rfl⟩ := List.mem_map.1 hdml
    exact htyped row (mem_of_mapM_some hrows hrow)
  · exact hobserve.trans (follows_bulkCopyApply hs₁ htyped)

/-! ### Maintenance and DDL -/

theorem follows_forTables {f : Engine → Engine × Except EngineError Unit}
    (hf : ∀ (P : Version → Prop) e, Engine.Gains P e (f e).1) (s : SessionEngine)
    (tables : List Name) : Follows s (forTables f s tables).1 := by
  induction tables generalizing s with
  | nil => exact .refl s
  | cons t ts ih =>
    rw [forTables]
    rcases hst : s.tables[t]? with _ | st
    · exact ih s
    have hgains := fun P => hf P st.engine
    dsimp only
    rcases hr : f st.engine with ⟨e, err | _⟩
    all_goals
      rw [hr] at hgains
    · exact follows_setEngine hst (hgains _)
    · exact (follows_setEngine hst (hgains _)).trans (ih _)

theorem follows_applyAdmin (s : SessionEngine) (cmd : AdminCommand) :
    Follows s (s.applyAdmin cmd).1 := by
  cases cmd with
  | checkpoint => exact follows_forTables (fun P e => e.gains_checkpoint) s _
  | flush => exact follows_forTables (fun P e => e.gains_flush) s _
  | compact =>
    refine follows_forTables (fun P e => ?_) s _
    have hflush := e.gains_flush (P := P)
    unfold flushCompact
    rcases hf : e.flush with ⟨e₁, err | _⟩
    all_goals
      rw [hf] at hflush
    · exact hflush
    · exact hflush.trans e₁.gains_compact

theorem follows_withFaults (s : SessionEngine) (f : DiskFaults) : Follows s (s.withFaults f) := by
  refine .of_catalog le_rfl rfl fun t st' ht => ?_
  rw [withFaults, OrdMap.getElem?_map] at ht
  rcases hst : s.tables[t]? with _ | st
  · rw [hst] at ht
    cases ht
  · rw [hst] at ht
    cases ht
    exact ⟨st, rfl, rfl, st.engine.gains_withFaults _⟩

theorem follows_logDdl (s : SessionEngine) (record : CatalogRecord) :
    Follows s (s.logDdl record).1 ∧ (s.logDdl record).1.catalog = s.catalog ∧
      (s.logDdl record).1.tables = s.tables ∧ (s.logDdl record).1.clock = s.clock := by
  unfold logDdl
  split
  · exact ⟨.refl s, rfl, rfl, rfl⟩
  split <;> exact ⟨.of_tables le_rfl rfl rfl, rfl, rfl, rfl⟩

/-- A statement that logs itself and then changes roles, grants or indexes. -/
theorem follows_logged (s : SessionEngine) (record : CatalogRecord)
    {f : SessionEngine → SessionEngine}
    (hf : ∀ s : SessionEngine, Follows s (f s)) :
    Follows s (match s.logDdl record with
      | (s, .error e) => (s, .error e)
      | (s, .ok ()) => (f s, .ok ()) : SessionEngine × Except SessionError Unit).1 := by
  obtain ⟨hlog, -⟩ := follows_logDdl s record
  rcases h : s.logDdl record with ⟨s₁, e | _⟩
  all_goals
    rw [h] at hlog
  · exact hlog
  · exact hlog.trans (hf s₁)

/-- The indexes of the catalog change. -/
theorem follows_indexes (s : SessionEngine) {catalog : Catalog}
    (hcatalog : ∃ indexes, catalog = { s.catalog with indexes }) :
    Follows s { s with catalog } := by
  obtain ⟨indexes, rfl⟩ := hcatalog
  refine ⟨le_rfl, fun ho => ho.withIndexes indexes, fun t at_ _ => rfl, fun t st' ht => ?_⟩
  exact .inl ⟨st', ht, rfl, .refl st'.engine⟩

theorem follows_applyUserDdl (s : SessionEngine) (at_ : SystemTimeMicros) (ddl : DdlStatement) :
    Follows s (s.applyUserDdl at_ ddl).1 := by
  unfold applyUserDdl
  split
  · split_ifs
    · exact .refl s
    · exact .refl s
    · exact follows_logged s _ fun s => .of_tables le_rfl rfl rfl
  · split_ifs
    · exact .refl s
    · exact .refl s
    · exact follows_logged s _ fun s => .of_tables le_rfl rfl rfl
  · split_ifs
    · exact .refl s
    · exact .refl s
    · exact .refl s
    · exact follows_logged s _ fun s => .of_tables le_rfl rfl rfl
  · exact .refl s

theorem gains_deleteKeys {P : Version → Prop} (clock : MonotonicClock) (txnId : TxnId)
    (principal : Bytes) (e : Engine) (ks : List BusinessKey) :
    Engine.Gains P e (e.deleteKeys clock txnId principal ks).1 := by
  induction ks generalizing e clock with
  | nil => exact .refl e
  | cons k ks ih =>
    rw [Engine.deleteKeys]
    have hdelete : Engine.Gains P e (e.write ⟨clock.now.2, k, txnId, principal, .delete⟩).1 :=
      (e.gains_write _).weaken fun v hv => hv.2.2.elim
    rcases hw : e.write ⟨clock.now.2, k, txnId, principal, .delete⟩ with ⟨e₁, err | _⟩
    all_goals
      rw [hw] at hdelete
    · exact hdelete
    · exact hdelete.trans (ih _ _)

/-- `CREATE TABLE` changes the catalog at its own instant, and takes the storage that the name has,
or a new one. -/
theorem follows_applyCreateTable (s : SessionEngine) (name : Name) (columns : List ColumnDef)
    (validTime : Option ValidTimeSpec) :
    Follows s (s.tick.applyCreateTable s.clock.now.2 name columns validTime).1 := by
  have htick := follows_tick s
  unfold applyCreateTable
  rcases htier : s.tick.tierFor name validTime.isSome with e | ⟨s₁, tier⟩
  · exact htick
  have hs₁ : s₁.catalog = s.catalog ∧ s₁.tables = s.tables ∧ s₁.clock = s.clock.now.1 ∧
      (s.tables[name]? = some tier ∨ tier.engine.writer.validTime = tier.validTime ∧
        ∀ v, ¬ tier.engine.Contains v) := by
    unfold tierFor at htier
    split at htier
    · next prev hprev =>
      split_ifs at htier
      cases htier
      exact ⟨rfl, rfl, rfl, .inl hprev⟩
    · cases htier
      refine ⟨rfl, rfl, rfl, .inr ⟨rfl, fun v hv => ?_⟩⟩
      rcases hv with hheld | hsealed | ⟨i, seg, hfile, -⟩
      · exact absurd hheld (Delta.holds_clearStaged {} v)
      · cases hsealed
      · simp at hfile
  obtain ⟨hcat₁, htab₁, hclock₁, htier'⟩ := hs₁
  have hf₁ : Follows s s₁ := .of_tables (by rw [hclock₁]; exact s.clock.le_now) hcat₁ htab₁
  dsimp only
  rcases hc : s₁.catalog.createTable name columns validTime s.clock.now.2 with e | ⟨catalog, id⟩
  · exact hf₁
  dsimp only
  obtain ⟨hlog, -, htab₂, hclock₂⟩ := follows_logDdl s₁
    (.createTable s.clock.now.2 tier.ns name columns validTime (some s₁.currentRole))
  rcases h : s₁.logDdl (.createTable s.clock.now.2 tier.ns name columns validTime
    (some s₁.currentRole)) with ⟨s₂, e | _⟩
  all_goals
    rw [h] at hlog htab₂ hclock₂
  · exact hf₁.trans hlog
  rw [hcat₁] at hc
  have hlt : s.clock.highWater < s.clock.now.2 := s.clock.lt_now (Catalog.createTable_ok hc).1
  have hmark : s₂.clock.highWater = s.clock.now.2 := by
    rw [hclock₂, hclock₁, MonotonicClock.highWater_now]
  refine ⟨hlt.le.trans_eq hmark.symm, fun ho => ?_, fun t at_ hle => ?_, fun t st' ht => ?_⟩
  · exact hmark ▸ ho.createTable hlt.le hc
  · exact Catalog.resolve_createTable hc (hle.trans_lt hlt) t
  · rw [OrdMap.getElem?_insert] at ht
    split_ifs at ht with heq
    · cases ht
      rw [← heq]
      refine htier'.imp (fun hprev => ⟨tier, hprev, rfl, .refl _⟩) fun hnew => ?_
      exact ⟨hnew.1, fun v hv => absurd hv (hnew.2 v)⟩
    · rw [htab₂, htab₁] at ht
      exact .inl ⟨st', ht, rfl, .refl _⟩

/-- `DROP TABLE` changes the catalog at its own instant, and closes rows. -/
theorem follows_applyDropTable (s : SessionEngine) (name : Name) (ifExists : Bool) :
    Follows s (s.tick.applyDropTable s.clock.now.2 name ifExists).1 := by
  have htick := follows_tick s
  obtain ⟨hlog, -, htab, hclock⟩ := follows_logDdl s.tick (.dropTable s.clock.now.2 name)
  rcases s.tick.applyDropTable_cases s.clock.now.2 name ifExists with ⟨r, hr, -⟩ |
    ⟨catalog, id, s₁, hc, hcases⟩
  · rw [hr]
    exact htick
  have hdropped : s₁.clock = s.tick.clock → s₁.tables = s.tables →
      Follows s { s₁ with catalog } := by
    intro hclock htab
    obtain ⟨current, -, hat, -⟩ := Catalog.dropTable_ok hc
    have hlt : s.clock.highWater < s.clock.now.2 := s.clock.lt_now hat
    have hmark : s₁.clock.highWater = s.clock.now.2 := by rw [hclock]; rfl
    refine ⟨hlt.le.trans_eq hmark.symm, fun ho => ?_, fun t at_ hle => ?_, fun t st' ht => ?_⟩
    · exact hmark ▸ ho.dropTable hlt.le hc
    · exact Catalog.resolve_dropTable hc (hle.trans_lt hlt) t
    · exact .inl ⟨st', by rw [← htab]; exact ht, rfl, .refl _⟩
  rcases hcases with ⟨e, hl, hr⟩ | ⟨hl, ⟨-, hr⟩ | ⟨st, e, clock, closed, hst, hclose, hle, r, hr⟩⟩
  all_goals rw [hr]; rw [hl] at hlog htab hclock
  · exact htick.trans hlog
  · exact hdropped hclock htab
  · -- closing the rows moves the clock on
    have hgains : Engine.Gains (({ s₁ with catalog } : SessionEngine).Admits name st.validTime)
        st.engine e := by
      have he : e = (st.engine.closeAllOpen s₁.clock s.clock.now.2 s₁.nextTxn
          s₁.writePrincipal).1 := by rw [hclose]
      rw [he]
      exact gains_deleteKeys ..
    have hset := follows_setEngine (s := { s₁ with catalog }) hst hgains
    exact (hdropped hclock htab).trans (hset.trans (.of_tables hle rfl rfl))

theorem follows_applyCreateIndex (s : SessionEngine) (at_ : SystemTimeMicros) (name table : Name)
    (kind : IndexKind) (columns : List Name) (built : Bool) :
    Follows s (s.applyCreateIndex at_ name table kind columns built).1 := by
  unfold applyCreateIndex
  split
  · exact .refl s
  split
  · exact .refl s
  next catalog hc =>
  split_ifs
  · exact .refl s
  · exact .refl s
  · exact .refl s
  obtain ⟨hlog, hcat, -⟩ := follows_logDdl s (.createIndex at_ name table kind columns)
  rcases h : s.logDdl (.createIndex at_ name table kind columns) with ⟨s₁, e | _⟩
  all_goals
    rw [h] at hlog hcat
  · exact hlog
  · refine hlog.trans (follows_indexes s₁ ?_)
    rw [show s₁.catalog = s.catalog from hcat]
    exact Catalog.createIndex_ok hc

theorem follows_applyDropIndex (s : SessionEngine) (at_ : SystemTimeMicros) (name : Name)
    (ifExists : Bool) : Follows s (s.applyDropIndex at_ name ifExists).1 := by
  unfold applyDropIndex
  split
  · exact .refl s
  · exact .refl s
  next catalog hc =>
  obtain ⟨hlog, hcat, -⟩ := follows_logDdl s (.dropIndex at_ name)
  rcases h : s.logDdl (.dropIndex at_ name) with ⟨s₁, e | _⟩
  all_goals
    rw [h] at hlog hcat
  · exact hlog
  · refine hlog.trans (follows_indexes s₁ ?_)
    rw [show s₁.catalog = s.catalog from hcat]
    exact Catalog.dropIndex_ok hc

theorem follows_applyGrantDdl (s : SessionEngine) (table : Name) (grantee : Grantee)
    (record : CatalogRecord) (change : AccessControl → AccessControl) :
    Follows s (s.applyGrantDdl table grantee record change).1 := by
  unfold applyGrantDdl
  split
  · exact .refl s
  · exact follows_logged s record fun s => .of_tables le_rfl rfl rfl

/-- Commands write no rows, and change the catalog at their own instant. -/
theorem follows_applyCommand (s : SessionEngine) (c : Command) :
    Follows s (s.applyCommand c).1 := by
  unfold applyCommand
  split
  · exact .refl s
  cases c with
  | ddl stmt =>
    dsimp only
    unfold applyDdl
    split
    · exact .refl s
    have htick := follows_tick s
    cases stmt with
    | createTable name columns validTime => exact follows_applyCreateTable ..
    | dropTable name ifExists => exact follows_applyDropTable ..
    | createIndex name table kind columns built => exact htick.trans (follows_applyCreateIndex ..)
    | dropIndex name ifExists => exact htick.trans (follows_applyDropIndex ..)
    | createUser name verifier superuser => exact htick.trans (follows_applyUserDdl ..)
    | alterUserPassword name verifier => exact htick.trans (follows_applyUserDdl ..)
    | dropUser name ifExists => exact htick.trans (follows_applyUserDdl ..)
    | grant table grantee privileges => exact htick.trans (follows_applyGrantDdl ..)
    | revoke table grantee privileges => exact htick.trans (follows_applyGrantDdl ..)
  | admin cmd =>
    dsimp only
    split
    · exact .refl s
    · exact follows_applyAdmin s cmd

end SessionEngine

end SteleDb
