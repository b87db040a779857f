import SteleDb.Lib.Bisect
import SteleDb.Lib.Runs
import SteleDb.Session.Eras

/-!
# The timeline of schemas

Definitions of tables, columns and indexes come at any instants, in any order, and some are refused.
A name keeps its schema versions in one chain, in which a lookup bisects; that is right only while
the chain is in order, whatever calls were made.

* `Catalog.Sound` : the chains are in order, and the indexes are of live tables and their columns;
* `Catalog.Sound.step` : every call keeps that;
* `Catalog.Sound.resolveBisect_eq` : a lookup is a scan of the chain;
* `catalog_timeline` : all of it, after every sequence of calls.
-/

namespace SteleDb

/-- A call that changes the catalog. -/
inductive CatalogCall where
  | createTable (name : Name) (columns : List ColumnDef) (validTime : Option ValidTimeSpec)
      (at_ : SystemTimeMicros)
  | addColumn (name : Name) (column : ColumnDef) (at_ : SystemTimeMicros)
  | dropTable (name : Name) (at_ : SystemTimeMicros)
  | createIndex (def_ : IndexDef)
  | dropIndex (name : Name)

/-- The instant of a call. -/
def CatalogCall.instant : CatalogCall → Option SystemTimeMicros
  | .createTable _ _ _ at_ | .addColumn _ _ at_ | .dropTable _ at_ => some at_
  | .createIndex _ | .dropIndex _ => none

/-- What an accepted call returns. -/
inductive CatalogAnswer where
  /-- The identifier of a schema that was opened. -/
  | opened (id : SchemaId)
  /-- The identifier of the schema that was closed. -/
  | closed (id : SchemaId)
  | done

namespace Catalog

/-! ### Calls -/

/-- The catalog that a refused `CREATE TABLE` leaves: two of its checks come when the identifier is
taken. -/
def refusedCreate (c : Catalog) : CatalogError → Catalog
  | .duplicateColumn _ | .tableRecreatedBeforeDrop .. =>
    { c with nextSchemaId := c.nextSchemaId + 1 }
  | _ => c

/-- `ALTER TABLE … ADD COLUMN`. -/
def addColumn (c : Catalog) (name : Name) (column : ColumnDef) (at_ : SystemTimeMicros) :
    Catalog × Except CatalogError SchemaId :=
  match c.openVersion name with
  | none => (c, .error (.unknownTable name))
  | some current =>
    if systemTimeOpen ≤ at_ then (c, .error (.systemTimeExhausted name at_))
    else if at_ ≤ current.sysFrom then
      (c, .error (.nonMonotonicSchemaChange name at_ current.sysFrom))
    else if column.name ∈ current.schema.columns.map ColumnDef.name then
      (c, .error (.duplicateColumn column.name))
    else if u32Max ≤ c.nextSchemaId then (c, .error .schemaIdExhausted)
    else
      let taken := { c with nextSchemaId := c.nextSchemaId + 1 }
      let columns := current.schema.columns ++ [column]
      match firstDuplicate [] (columns.map ColumnDef.name) with
      | some column => (taken, .error (.duplicateColumn column))
      | none =>
        let opened : SchemaVersion :=
          ⟨at_, systemTimeOpen, ⟨c.nextSchemaId, columns, current.schema.validTime⟩⟩
        ({ taken with
           tables := c.tables.insert name
             ((c.versions name).dropLast ++ [{ current with sysTo := at_ }, opened]) },
          .ok c.nextSchemaId)

/-- One call, and the catalog after it. -/
def step (c : Catalog) : CatalogCall → Catalog × Except CatalogError CatalogAnswer
  | .createTable name columns validTime at_ =>
    match c.createTable name columns validTime at_ with
    | .ok (c', id) => (c', .ok (.opened id))
    | .error e => (c.refusedCreate e, .error e)
  | .addColumn name column at_ =>
    ((c.addColumn name column at_).1, (c.addColumn name column at_).2.map .opened)
  | .dropTable name at_ =>
    match c.dropTable name at_ with
    | .ok (c', id) => (c', .ok (.closed id))
    | .error e => (c, .error e)
  | .createIndex def_ =>
    match c.createIndex def_ with
    | .ok c' => (c', .ok .done)
    | .error e => (c, .error e)
  | .dropIndex name =>
    match c.dropIndex name with
    | .ok c' => (c', .ok .done)
    | .error e => (c, .error e)

/-! ### Questions -/

/-- The schema of a name at a snapshot, by bisection. -/
def resolveBisect (c : Catalog) (name : Name) (snapshot : SystemTimeMicros) :
    Option TableSchema := do
  let versions ← c.tables[name]?
  let started := partitionPoint (fun v => v.sysFrom ≤ snapshot) versions
  if started = 0 then none
  else
    let candidate ← versions[started - 1]?
    if snapshot < candidate.sysTo then some candidate.schema else none

/-- When the history of a name begins. -/
def historyStart (c : Catalog) (name : Name) : Option SystemTimeMicros := do
  let versions ← c.tables[name]?
  let first ← versions.head?
  return first.sysFrom

/-- The schema with an identifier. -/
def schemaById (c : Catalog) (id : SchemaId) : Option TableSchema :=
  ((c.tables.toList.flatMap Prod.snd).map SchemaVersion.schema).find? (·.schemaId = id)

/-- The index with a name. -/
def index (c : Catalog) (name : Name) : Option IndexDef := c.indexes[name]?

/-- Every index, in the order of names. -/
def liveIndexes (c : Catalog) : List IndexDef := c.indexes.toList.map Prod.snd

/-- The indexes of a table, in the order of names. -/
def indexesOn (c : Catalog) (table : Name) : List IndexDef :=
  c.liveIndexes.filter (·.table = table)

end Catalog

/-- The snapshot is in the interval of the version. -/
def SchemaVersion.Contains (v : SchemaVersion) (snapshot : SystemTimeMicros) : Prop :=
  v.sysFrom ≤ snapshot ∧ snapshot < v.sysTo

instance (v : SchemaVersion) (snapshot : SystemTimeMicros) : Decidable (v.Contains snapshot) :=
  inferInstanceAs (Decidable (_ ∧ _))

/-- The versions of a name follow one another, and at most the last is open. -/
structure Timeline (versions : List SchemaVersion) : Prop where
  chain : versions.Pairwise fun v w => v.sysTo ≤ w.sysFrom
  era : ∀ v ∈ versions, v.sysFrom < v.sysTo ∧ v.sysTo ≤ systemTimeOpen

namespace Timeline

variable {vs : List SchemaVersion} {v w : SchemaVersion} {snapshot at_ : SystemTimeMicros}

theorem nil : Timeline [] := ⟨List.Pairwise.nil, by simp⟩

/-- A later version is appended. -/
theorem concat (h : Timeline vs) (hlt : v.sysFrom < v.sysTo) (hle : v.sysTo ≤ systemTimeOpen)
    (hends : ∀ w ∈ vs, w.sysTo ≤ v.sysFrom) : Timeline (vs ++ [v]) := by
  refine ⟨List.pairwise_append.2 ⟨h.chain, List.pairwise_singleton _ _, fun w hw u hu => ?_⟩,
    fun w hw => ?_⟩
  · rw [List.mem_singleton.1 hu]
    exact hends w hw
  · rcases List.mem_append.1 hw with hw | hw
    · exact h.era w hw
    · rw [List.mem_singleton.1 hw]
      exact ⟨hlt, hle⟩

theorem of_concat (h : Timeline (vs ++ [v])) : Timeline vs ∧ (∀ w ∈ vs, w.sysTo ≤ v.sysFrom) ∧
    v.sysFrom < v.sysTo ∧ v.sysTo ≤ systemTimeOpen := by
  have hchain := List.pairwise_append.1 h.chain
  refine ⟨⟨hchain.1, fun w hw => h.era w (List.mem_append_left _ hw)⟩,
    fun w hw => hchain.2.2 w hw v (by simp), h.era v (by simp)⟩

/-- The last version ends last. -/
theorem le_last (h : Timeline vs) (hlast : vs.getLast? = some v) (hle : v.sysTo ≤ at_) :
    ∀ w ∈ vs, w.sysTo ≤ at_ := by
  obtain ⟨us, rfl⟩ := List.getLast?_eq_some_iff.1 hlast
  obtain ⟨-, hends, hera⟩ := h.of_concat
  intro w hw
  rcases List.mem_append.1 hw with hw | hw
  · exact ((hends w hw).trans hera.1.le).trans hle
  · rwa [List.mem_singleton.1 hw]

/-- The last version is ended. -/
theorem close (h : Timeline (vs ++ [v])) (hlt : v.sysFrom < at_) (hle : at_ ≤ systemTimeOpen) :
    Timeline (vs ++ [{ v with sysTo := at_ }]) := by
  obtain ⟨hvs, hends, -⟩ := h.of_concat
  exact hvs.concat hlt hle hends

/-- At most the last version is open. -/
theorem open_last (h : Timeline vs) (hv : v ∈ vs) (hopen : v.sysTo = systemTimeOpen) :
    vs.getLast? = some v := by
  obtain ⟨l, l', rfl⟩ := List.append_of_mem hv
  cases l' with
  | nil => rw [List.getLast?_concat]
  | cons w l' =>
    have hchain := (List.pairwise_cons.1 (List.pairwise_append.1 h.chain).2.1).1 w
      List.mem_cons_self
    have hera := h.era w (by simp)
    exact absurd ((hopen ▸ hchain).trans_lt hera.1) (not_lt.2 hera.2)

/-- The intervals are disjoint. -/
theorem unique (h : Timeline vs) (hv : v ∈ vs) (hw : w ∈ vs) (hcv : v.Contains snapshot)
    (hcw : w.Contains snapshot) : v = w := by
  have hdisjoint : ∀ a b : SchemaVersion, a.sysTo ≤ b.sysFrom → a.Contains snapshot →
      ¬b.Contains snapshot :=
    fun a b hab ha hb => absurd (hab.trans hb.1) (not_le.2 ha.2)
  obtain ⟨i, hi, rfl⟩ := List.mem_iff_getElem.1 hv
  obtain ⟨j, hj, rfl⟩ := List.mem_iff_getElem.1 hw
  have hchain := List.pairwise_iff_getElem.1 h.chain
  rcases lt_trichotomy i j with hij | rfl | hij
  · exact absurd hcw (hdisjoint _ _ (hchain i j hi hj hij) hcv)
  · rfl
  · exact absurd hcv (hdisjoint _ _ (hchain j i hj hi hij) hcw)

/-- The version that a bisection or a scan finds. -/
theorem find?_eq_some (h : Timeline vs) :
    (vs.find? fun v => decide (v.Contains snapshot)) = some v ↔ v ∈ vs ∧ v.Contains snapshot := by
  constructor
  · intro hfind
    have hcontains := List.find?_some hfind
    exact ⟨List.mem_of_find?_eq_some hfind, of_decide_eq_true hcontains⟩
  · rintro ⟨hv, hcv⟩
    cases hfind : vs.find? fun v => decide (v.Contains snapshot) with
    | none =>
      have hno := List.find?_eq_none.1 hfind v hv
      exact absurd (decide_eq_true hcv) hno
    | some w =>
      have hcw := List.find?_some hfind
      rw [h.unique (List.mem_of_find?_eq_some hfind) hv (of_decide_eq_true hcw) hcv]

/-- The versions that have started by a snapshot, and those that have not. -/
theorem partition (h : Timeline vs) (snapshot : SystemTimeMicros) :
    ∃ l l', vs = l ++ l' ∧ (∀ v ∈ l, v.sysFrom ≤ snapshot) ∧ ∀ v ∈ l', snapshot < v.sysFrom := by
  refine ⟨vs.takeWhile fun v => v.sysFrom ≤ snapshot, vs.dropWhile fun v => v.sysFrom ≤ snapshot,
    List.takeWhile_append_dropWhile.symm, fun v hv => ?_, fun v hv => ?_⟩
  · have htrue := List.mem_takeWhile_imp hv
    exact of_decide_eq_true htrue
  · -- the first that has not started is before the others
    have hsplit := List.takeWhile_append_dropWhile (p := fun v : SchemaVersion =>
      decide (v.sysFrom ≤ snapshot)) (l := vs)
    cases hdrop : vs.dropWhile fun v => decide (v.sysFrom ≤ snapshot) with
    | nil =>
      rw [hdrop] at hv
      cases hv
    | cons w l' =>
      have hw := List.head_dropWhile_not (p := fun v : SchemaVersion =>
        decide (v.sysFrom ≤ snapshot)) (l := vs) (by rw [hdrop]; exact List.cons_ne_nil _ _)
      simp only [hdrop, List.head_cons, decide_eq_false_iff_not, not_le] at hw
      rw [hdrop] at hv hsplit
      rcases List.mem_cons.1 hv with rfl | hv
      · exact hw
      · have hchain := h.chain
        rw [← hsplit] at hchain
        have hle := (List.pairwise_cons.1 (List.pairwise_append.1 hchain).2.1).1 v hv
        have hera := h.era w (by rw [← hsplit]; simp)
        exact (hw.trans hera.1).trans_le hle

/-- **A bisection finds what a scan finds.** -/
theorem bisect_eq_find? (h : Timeline vs) (snapshot : SystemTimeMicros) :
    (if partitionPoint (fun v => v.sysFrom ≤ snapshot) vs = 0 then none
      else vs[partitionPoint (fun v => v.sysFrom ≤ snapshot) vs - 1]?.filter
        fun v => decide (snapshot < v.sysTo)) = vs.find? fun v => decide (v.Contains snapshot) := by
  obtain ⟨l, l', rfl, hl, hl'⟩ := h.partition snapshot
  have hpoint : partitionPoint (fun v : SchemaVersion => v.sysFrom ≤ snapshot) (l ++ l') =
      l.length :=
    partitionPoint_eq (fun v hv => decide_eq_true (hl v hv))
      fun v hv => decide_eq_false (not_le.2 (hl' v hv))
  have hlate : ∀ v ∈ l', ¬v.Contains snapshot :=
    fun v hv hc => absurd hc.1 (not_le.2 (hl' v hv))
  rw [hpoint]
  rcases List.eq_nil_or_concat l with rfl | ⟨us, last, hus⟩
  · rw [List.nil_append, if_pos List.length_nil, eq_comm, List.find?_eq_none]
    exact fun v hv => by simpa using hlate v hv
  · rw [List.concat_eq_append] at hus
    subst hus
    have hlen : (us ++ [last]).length - 1 = us.length := by simp
    rw [if_neg (by simp), hlen, List.append_assoc, List.getElem?_append_right le_rfl, Nat.sub_self]
    -- the versions before the last one that has started have ended
    have hearly : ∀ v ∈ us, ¬v.Contains snapshot := fun v hv hc => by
      have hchain := (List.pairwise_append.1 h.chain).1
      have hend := (List.pairwise_append.1 hchain).2.2 v hv last (by simp)
      exact absurd (hend.trans (hl last (by simp))) (not_le.2 hc.2)
    have hstart := hl last (by simp)
    have hnone : us.find? (fun v => decide (v.Contains snapshot)) = none :=
      List.find?_eq_none.2 fun v hv => by simpa using hearly v hv
    rw [List.find?_append, hnone, Option.none_or, List.singleton_append, List.find?_cons]
    by_cases hto : snapshot < last.sysTo
    · rw [decide_eq_true ⟨hstart, hto⟩]
      exact Option.filter_some_pos (decide_eq_true hto)
    · rw [decide_eq_false fun hc => hto hc.2, List.find?_eq_none.2 fun v hv => by
        simpa using hlate v hv]
      exact Option.filter_some_neg (by simpa using hto)

end Timeline

namespace Catalog

/-- What an accepted call does. -/
inductive Accepted (c : Catalog) : CatalogCall → Catalog → CatalogAnswer → Prop
  | createTable {name : Name} {columns : List ColumnDef} {validTime : Option ValidTimeSpec}
      {at_ : SystemTimeMicros} {c' : Catalog} {id : SchemaId}
      (h : c.createTable name columns validTime at_ = .ok (c', id)) :
      Accepted c (.createTable name columns validTime at_) c' (.opened id)
  | addColumn {name : Name} {column : ColumnDef} {at_ : SystemTimeMicros} {c' : Catalog}
      {id : SchemaId} (h : c.addColumn name column at_ = (c', .ok id)) :
      Accepted c (.addColumn name column at_) c' (.opened id)
  | dropTable {name : Name} {at_ : SystemTimeMicros} {c' : Catalog} {id : SchemaId}
      (h : c.dropTable name at_ = .ok (c', id)) : Accepted c (.dropTable name at_) c' (.closed id)
  | createIndex {def_ : IndexDef} {c' : Catalog} (h : c.createIndex def_ = .ok c') :
      Accepted c (.createIndex def_) c' .done
  | dropIndex {name : Name} {c' : Catalog} (h : c.dropIndex name = .ok c') :
      Accepted c (.dropIndex name) c' .done

variable {c c' : Catalog} {name t : Name} {at_ snapshot : SystemTimeMicros} {id : SchemaId}

/-! ### What a call does -/

theorem versions_of_insert {vs : List SchemaVersion} (h : c'.tables = c.tables.insert name vs)
    (t : Name) : c'.versions t = if name = t then vs else c.versions t := by
  rw [versions, h, OrdMap.getElem?_insert]
  split_ifs <;> rfl

theorem addColumn_ok {column : ColumnDef} (h : c.addColumn name column at_ = (c', .ok id)) :
    ∃ current, c.openVersion name = some current ∧ at_ < systemTimeOpen ∧ current.sysFrom < at_ ∧
      id = c.nextSchemaId ∧ c' = { c with
        nextSchemaId := c.nextSchemaId + 1
        tables := c.tables.insert name
          ((c.versions name).dropLast ++ [{ current with sysTo := at_ },
          ⟨at_, systemTimeOpen, ⟨c.nextSchemaId, current.schema.columns ++ [column],
            current.schema.validTime⟩⟩]) } := by
  rw [addColumn] at h
  split at h
  next => cases h
  next current hcur =>
    split_ifs at h with hat hfrom hdup hid
    · cases h
    · cases h
    · cases h
    · cases h
    · dsimp only at h
      split at h
      · cases h
      · cases h
        exact ⟨current, hcur, not_le.1 hat, not_le.1 hfrom, rfl, rfl⟩

theorem addColumn_error {column : ColumnDef} {e : CatalogError}
    (h : c.addColumn name column at_ = (c', .error e)) :
    ∃ next, c.nextSchemaId ≤ next ∧ c' = { c with nextSchemaId := next } := by
  rw [addColumn] at h
  split at h
  next =>
    cases h
    exact ⟨_, le_rfl, rfl⟩
  next current hcur =>
    split_ifs at h
    · cases h
      exact ⟨_, le_rfl, rfl⟩
    · cases h
      exact ⟨_, le_rfl, rfl⟩
    · cases h
      exact ⟨_, le_rfl, rfl⟩
    · cases h
      exact ⟨_, le_rfl, rfl⟩
    · -- the identifier is taken
      dsimp only at h
      split at h
      · cases h
        exact ⟨_, Nat.le_succ _, rfl⟩
      · cases h

/-- What a refused call leaves: at most an identifier is gone. -/
theorem step_error {call : CatalogCall} {e : CatalogError} (h : c.step call = (c', .error e)) :
    ∃ next, c.nextSchemaId ≤ next ∧ c' = { c with nextSchemaId := next } := by
  cases call with
  | createTable name columns validTime at_ =>
    rw [step] at h
    split at h
    next => cases h
    next e' he =>
      cases h
      cases e <;> first | exact ⟨_, Nat.le_succ _, rfl⟩ | exact ⟨_, le_rfl, rfl⟩
  | addColumn name column at_ =>
    rw [step] at h
    obtain ⟨rfl, hout⟩ := Prod.mk.inj h
    cases hid : (c.addColumn name column at_).2 with
    | ok id =>
      rw [hid] at hout
      cases hout
    | error e' => exact addColumn_error (Prod.ext rfl hid)
  | dropTable name at_ | createIndex def_ | dropIndex name =>
    rw [step] at h
    split at h
    next => cases h
    next e' he =>
      cases h
      exact ⟨_, le_rfl, rfl⟩

theorem step_ok {call : CatalogCall} {answer : CatalogAnswer} (h : c.step call = (c', .ok answer)) :
    c.Accepted call c' answer := by
  cases call with
  | createTable name columns validTime at_ =>
    rw [step] at h
    split at h
    next c' id hc =>
      cases h
      exact .createTable hc
    next => cases h
  | addColumn name column at_ =>
    rw [step] at h
    obtain ⟨rfl, hout⟩ := Prod.mk.inj h
    cases hid : (c.addColumn name column at_).2 with
    | ok id =>
      rw [hid] at hout
      cases hout
      exact .addColumn (Prod.ext rfl hid)
    | error e' =>
      rw [hid] at hout
      cases hout
  | dropTable name at_ =>
    rw [step] at h
    split at h
    next c' id hc =>
      cases h
      exact .dropTable hc
    next => cases h
  | createIndex def_ =>
    rw [step] at h
    split at h
    next c' hc =>
      cases h
      exact .createIndex hc
    next => cases h
  | dropIndex name =>
    rw [step] at h
    split at h
    next c' hc =>
      cases h
      exact .dropIndex hc
    next => cases h

/-- The chain of a live table, and a change of its last version. -/
theorem find?_close {us : List SchemaVersion} {current : SchemaVersion}
    (hle : at_ ≤ current.sysTo) (hlt : snapshot < at_) (l : List SchemaVersion)
    (hl : ∀ v ∈ l, ¬v.Contains snapshot) :
    ((us ++ { current with sysTo := at_ } :: l).find? fun v => v.Contains snapshot).map
      SchemaVersion.schema =
    ((us ++ [current]).find? fun v => v.Contains snapshot).map SchemaVersion.schema := by
  have hcontains : SchemaVersion.Contains { current with sysTo := at_ } snapshot ↔
      current.Contains snapshot :=
    ⟨fun h => ⟨h.1, h.2.trans_le hle⟩, fun h => ⟨h.1, hlt⟩⟩
  have hnone : l.find? (fun v => decide (v.Contains snapshot)) = none :=
    List.find?_eq_none.2 fun v hv => by simpa using hl v hv
  rw [List.find?_append, List.find?_append, List.find?_cons, List.find?_cons, List.find?_nil, hnone]
  by_cases hc : current.Contains snapshot
  · rw [decide_eq_true (hcontains.2 hc), decide_eq_true hc]
    cases us.find? fun v => decide (v.Contains snapshot) <;> rfl
  · rw [decide_eq_false (mt hcontains.1 hc), decide_eq_false hc]

theorem createTable_id {columns : List ColumnDef} {validTime : Option ValidTimeSpec}
    (h : c.createTable name columns validTime at_ = .ok (c', id)) : id = c.nextSchemaId := by
  rw [createTable] at h
  split_ifs at h
  split at h
  · cases h
  · dsimp only at h
    split at h
    · cases h
    · cases h
      rfl

/-! ### The invariant -/

/-- The chains are in order, and every index is of a live table and of columns of it that are not
its key. -/
structure Sound (c : Catalog) : Prop where
  timeline : ∀ name, Timeline (c.versions name)
  indexed : ∀ (name : Name) (d : IndexDef), c.indexes[name]? = some d →
    ∃ current, c.openVersion d.table = some current ∧
    ∀ column ∈ d.columns, column ∈ current.schema.columns.map ColumnDef.name ∧
      (current.schema.columns.map ColumnDef.name).head? ≠ some column

theorem sound_empty : Sound {} where
  timeline name := by
    have hnil : versions {} name = [] := by simp [versions]
    rw [hnil]
    exact Timeline.nil
  indexed name d hd := by simp at hd

theorem checkIndexColumns_ok {index : Name} {schema : TableSchema} {columns : List Name}
    (h : checkIndexColumns index schema columns = .ok ()) : ∀ column ∈ columns,
      column ∈ schema.columns.map ColumnDef.name ∧
        (schema.columns.map ColumnDef.name).head? ≠ some column := by
  induction columns with
  | nil => simp
  | cons column columns ih =>
    rw [checkIndexColumns] at h
    split_ifs at h with hmem hkey
    intro d hd
    rcases List.mem_cons.1 hd with rfl | hd
    · exact ⟨hmem, hkey⟩
    · exact ih h d hd

namespace Sound

theorem withNext (h : c.Sound) (next : SchemaId) : Sound { c with nextSchemaId := next } :=
  ⟨h.timeline, h.indexed⟩

theorem createTable (h : c.Sound) {columns : List ColumnDef} {validTime : Option ValidTimeSpec}
    (hc : c.createTable name columns validTime at_ = .ok (c', id)) : c'.Sound := by
  obtain ⟨hat, hopen, hlast, rfl⟩ := createTable_ok hc
  refine ⟨fun t => ?_, fun index d hd => ?_⟩
  · rw [versions_of_insert rfl]
    split_ifs with ht
    · refine (h.timeline name).concat hat le_rfl fun w hw => ?_
      obtain ⟨us, last, hus⟩ := List.eq_nil_or_concat (c.versions name) |>.resolve_left
        (List.ne_nil_of_mem hw)
      have hgl : (c.versions name).getLast? = some last := by
        rw [hus, List.concat_eq_append, List.getLast?_concat]
      exact (h.timeline name).le_last hgl (hlast last hgl) w hw
    · exact h.timeline t
  · -- the table of an index is live, and the new one is not
    obtain ⟨current, hcur, hcols⟩ := h.indexed index d hd
    refine ⟨current, ?_, hcols⟩
    have hne : name ≠ d.table := fun heq => by
      rw [heq, hcur] at hopen
      cases hopen
    rw [openVersion_eq, versions_of_insert rfl, if_neg hne, ← openVersion_eq]
    exact hcur

theorem addColumn (h : c.Sound) {column : ColumnDef}
    (hc : c.addColumn name column at_ = (c', .ok id)) : c'.Sound := by
  obtain ⟨current, hcur, hat, hfrom, -, rfl⟩ := addColumn_ok hc
  have hvs := versions_of_open hcur
  have htimeline := h.timeline name
  rw [hvs] at htimeline
  refine ⟨fun t => ?_, fun index d hd => ?_⟩
  · rw [versions_of_insert rfl]
    split_ifs with ht
    · have hclosed := htimeline.close hfrom hat.le
      rw [List.append_cons]
      refine hclosed.concat hat le_rfl fun w hw => ?_
      exact hclosed.le_last (List.getLast?_concat ..) le_rfl w hw
    · exact h.timeline t
  · obtain ⟨old, hold, hcols⟩ := h.indexed index d hd
    by_cases ht : name = d.table
    · rw [← ht, hcur] at hold
      cases hold
      refine ⟨⟨at_, systemTimeOpen, ⟨c.nextSchemaId, current.schema.columns ++ [column],
        current.schema.validTime⟩⟩, openVersion_eq_some.2 ⟨?_, rfl⟩, fun col hcol => ?_⟩
      · rw [versions_of_insert rfl, if_pos ht, List.append_cons, List.getLast?_concat]
      · obtain ⟨hmem, hkey⟩ := hcols col hcol
        rw [List.map_append]
        refine ⟨List.mem_append_left _ hmem, ?_⟩
        rwa [List.head?_append_of_ne_nil _ (List.ne_nil_of_mem hmem)]
    · refine ⟨old, ?_, hcols⟩
      rw [openVersion_eq, versions_of_insert rfl, if_neg ht, ← openVersion_eq]
      exact hold

theorem dropTable (h : c.Sound) (hc : c.dropTable name at_ = .ok (c', id)) : c'.Sound := by
  obtain ⟨current, hcur, hat, hfrom, rfl⟩ := dropTable_ok hc
  have hvs := versions_of_open hcur
  have htimeline := h.timeline name
  rw [hvs] at htimeline
  refine ⟨fun t => ?_, fun index d hd => ?_⟩
  · rw [versions_of_insert rfl]
    split_ifs with ht
    · exact htimeline.close hfrom hat.le
    · exact h.timeline t
  · -- the indexes of the table are gone
    simp only [OrdMap.getElem?_filter, Option.filter_eq_some_iff, decide_eq_true_iff] at hd
    obtain ⟨old, hold, hcols⟩ := h.indexed index d hd.1
    refine ⟨old, ?_, hcols⟩
    rw [openVersion_eq, versions_of_insert rfl, if_neg fun heq => hd.2 heq.symm, ← openVersion_eq]
    exact hold

theorem createIndex (h : c.Sound) {def_ : IndexDef} (hc : c.createIndex def_ = .ok c') :
    c'.Sound := by
  rw [Catalog.createIndex] at hc
  split_ifs at hc
  split at hc
  next => cases hc
  next current hcur =>
    split at hc
    next => cases hc
    next hok =>
      cases hc
      refine ⟨h.timeline, fun index d hd => ?_⟩
      rw [OrdMap.getElem?_insert] at hd
      split_ifs at hd with hname
      · cases hd
        exact ⟨current, hcur, checkIndexColumns_ok hok⟩
      · exact h.indexed index d hd

theorem dropIndex (h : c.Sound) (hc : c.dropIndex name = .ok c') : c'.Sound := by
  rw [Catalog.dropIndex] at hc
  split_ifs at hc
  cases hc
  refine ⟨h.timeline, fun index d hd => ?_⟩
  rw [OrdMap.getElem?_erase] at hd
  split_ifs at hd
  exact h.indexed index d hd

theorem accepted (h : c.Sound) {call : CatalogCall} {answer : CatalogAnswer}
    (hc : c.Accepted call c' answer) : c'.Sound := by
  cases hc with
  | createTable hc => exact h.createTable hc
  | addColumn hc => exact h.addColumn hc
  | dropTable hc => exact h.dropTable hc
  | createIndex hc => exact h.createIndex hc
  | dropIndex hc => exact h.dropIndex hc

/-- **Every call keeps the invariant.** -/
theorem step (h : c.Sound) (call : CatalogCall) : (c.step call).1.Sound := by
  cases hout : (c.step call).2 with
  | error e =>
    have hpair : c.step call = ((c.step call).1, .error e) := Prod.ext rfl hout
    obtain ⟨next, -, hc⟩ := step_error hpair
    rw [hc]
    exact h.withNext next
  | ok answer => exact h.accepted (step_ok (Prod.ext rfl hout))

/-- **A lookup is a scan of the chain.** -/
theorem resolveBisect_eq (h : c.Sound) (name : Name) (snapshot : SystemTimeMicros) :
    c.resolveBisect name snapshot =
      ((c.versions name).find? fun v => v.Contains snapshot).map SchemaVersion.schema := by
  have htimeline := h.timeline name
  rw [resolveBisect]
  cases hvs : c.tables[name]? with
  | none =>
    have hnil : c.versions name = [] := by rw [versions, hvs]; rfl
    rw [hnil]
    rfl
  | some vs =>
    have hsome : c.versions name = vs := by rw [versions, hvs]; rfl
    rw [hsome] at htimeline ⊢
    rw [← htimeline.bisect_eq_find?]
    simp only [bind, Option.bind_some]
    split_ifs with hzero
    · rfl
    · cases vs[partitionPoint (fun v => decide (v.sysFrom ≤ snapshot)) vs - 1]? with
      | none => rfl
      | some v =>
        rw [Option.bind_some]
        by_cases hto : snapshot < v.sysTo
        · rw [if_pos hto]
          simp [Option.filter, hto]
        · rw [if_neg hto]
          simp [Option.filter, hto]

/-- **An accepted call leaves the lookups before its instant.** -/
theorem resolve_before (h : c.Sound) {call : CatalogCall} {answer : CatalogAnswer}
    (hc : c.Accepted call c' answer) (hat : call.instant = some at_) (hlt : snapshot < at_)
    (t : Name) : c'.resolveBisect t snapshot = c.resolveBisect t snapshot := by
  rw [(h.accepted hc).resolveBisect_eq, h.resolveBisect_eq]
  cases hc with
  | @createTable name columns validTime _ _ _ hc =>
    cases hat
    rw [versions_createTable hc]
    split_ifs with ht
    · -- the new version has not started
      subst ht
      have hnot : ¬SchemaVersion.Contains
          ⟨at_, systemTimeOpen, ⟨c.nextSchemaId, columns, validTime⟩⟩ snapshot :=
        fun hcontains => not_le.2 hlt hcontains.1
      rw [List.find?_append, List.find?_cons, decide_eq_false hnot]
      simp
    · rfl
  | @addColumn name column _ _ _ hc =>
    cases hat
    obtain ⟨current, hcur, hopen, hfrom, -, rfl⟩ := addColumn_ok hc
    rw [versions_of_insert rfl]
    split_ifs with ht
    · subst ht
      conv_rhs => rw [versions_of_open hcur]
      refine find?_close ?_ hlt _ fun v hv => ?_
      · rw [(openVersion_eq_some.1 hcur).2]
        exact hopen.le
      · rw [List.mem_singleton.1 hv]
        exact fun hcontains => not_le.2 hlt hcontains.1
    · rfl
  | @dropTable name _ _ _ hc =>
    cases hat
    obtain ⟨current, hcur, hopen, hfrom, rfl⟩ := dropTable_ok hc
    rw [versions_of_insert rfl]
    split_ifs with ht
    · subst ht
      conv_rhs => rw [versions_of_open hcur]
      refine find?_close ?_ hlt [] (by simp)
      rw [(openVersion_eq_some.1 hcur).2]
      exact hopen.le
    · rfl
  | createIndex hc => cases hat
  | dropIndex hc => cases hat

end Sound

/-! ### Identifiers -/

/-- The identifiers that calls open schemas under. -/
def issued (c : Catalog) : List CatalogCall → List SchemaId
  | [] => []
  | call :: calls =>
    match (c.step call).2 with
    | .ok (.opened id) => id :: issued (c.step call).1 calls
    | _ => issued (c.step call).1 calls

/-- An identifier that is issued is taken. -/
theorem step_next (c : Catalog) (call : CatalogCall) :
    c.nextSchemaId ≤ (c.step call).1.nextSchemaId ∧ ∀ id, (c.step call).2 = .ok (.opened id) →
      id = c.nextSchemaId ∧ c.nextSchemaId < (c.step call).1.nextSchemaId := by
  cases hout : (c.step call).2 with
  | error e =>
    have hpair : c.step call = ((c.step call).1, .error e) := Prod.ext rfl hout
    obtain ⟨next, hle, hc⟩ := step_error hpair
    rw [hc]
    exact ⟨hle, fun id h => by cases h⟩
  | ok answer =>
    have haccepted : c.Accepted call (c.step call).1 answer := step_ok (Prod.ext rfl hout)
    generalize (c.step call).1 = c' at haccepted
    cases haccepted with
    | createTable hc =>
      have hid := createTable_id hc
      obtain ⟨-, -, -, rfl⟩ := createTable_ok hc
      refine ⟨Nat.le_succ _, fun id h => ?_⟩
      cases h
      exact ⟨hid, Nat.lt_succ_self _⟩
    | addColumn hc =>
      obtain ⟨current, -, -, -, hid, rfl⟩ := addColumn_ok hc
      refine ⟨Nat.le_succ _, fun id h => ?_⟩
      cases h
      exact ⟨hid, Nat.lt_succ_self _⟩
    | dropTable hc =>
      obtain ⟨current, -, -, -, rfl⟩ := dropTable_ok hc
      exact ⟨le_rfl, fun id h => by cases h⟩
    | createIndex hc =>
      obtain ⟨indexes, rfl⟩ := createIndex_ok hc
      exact ⟨le_rfl, fun id h => by cases h⟩
    | dropIndex hc =>
      obtain ⟨indexes, rfl⟩ := dropIndex_ok hc
      exact ⟨le_rfl, fun id h => by cases h⟩

/-- **Identifiers are issued in ascending order.** -/
theorem issued_sorted (calls : List CatalogCall) (c : Catalog) :
    (c.issued calls).Pairwise (· < ·) ∧ ∀ id ∈ c.issued calls, c.nextSchemaId ≤ id := by
  induction calls generalizing c with
  | nil => exact ⟨List.Pairwise.nil, by simp [issued]⟩
  | cons call calls ih =>
    obtain ⟨hsorted, hge⟩ := ih (c.step call).1
    obtain ⟨hnext, hid⟩ := step_next c call
    rw [issued]
    split
    next id hout =>
      obtain ⟨rfl, hlt⟩ := hid id hout
      refine ⟨List.pairwise_cons.2 ⟨fun a ha => hlt.trans_le (hge a ha), hsorted⟩, fun a ha => ?_⟩
      rcases List.mem_cons.1 ha with rfl | ha
      · exact le_rfl
      · exact hnext.trans (hge a ha)
    next => exact ⟨hsorted, fun a ha => hnext.trans (hge a ha)⟩

/-! ### All sequences of calls -/

/-- Two catalogs answer every question alike. -/
structure SameAnswers (c c' : Catalog) : Prop where
  resolve : ∀ name snapshot, c'.resolveBisect name snapshot = c.resolveBisect name snapshot
  historyStart : ∀ name, c'.historyStart name = c.historyStart name
  schemaById : ∀ id, c'.schemaById id = c.schemaById id
  index : ∀ name, c'.index name = c.index name
  indexesOn : ∀ table, c'.indexesOn table = c.indexesOn table
  liveIndexes : c'.liveIndexes = c.liveIndexes

/-- What holds of a catalog that calls have made. -/
structure Kept (c : Catalog) : Prop where
  /-- The versions of a name are in order, their intervals not empty and disjoint. -/
  timeline : ∀ name, Timeline (c.versions name)
  /-- At most the last is open. -/
  open_last : ∀ name, ∀ v ∈ c.versions name, v.sysTo = systemTimeOpen →
    (c.versions name).getLast? = some v
  /-- At most one version contains a snapshot. -/
  unique : ∀ name snapshot, ∀ v ∈ c.versions name, ∀ w ∈ c.versions name,
    v.Contains snapshot → w.Contains snapshot → v = w
  /-- A lookup returns that version, or none. -/
  resolve_iff : ∀ name snapshot schema, c.resolveBisect name snapshot = some schema ↔
    ∃ v ∈ c.versions name, v.Contains snapshot ∧ v.schema = schema
  /-- It is a scan. -/
  scan : ∀ name snapshot, c.resolveBisect name snapshot =
    ((c.versions name).find? fun v => v.Contains snapshot).map SchemaVersion.schema
  /-- An accepted call leaves the past. -/
  accepted : ∀ call c' answer at_, c.step call = (c', .ok answer) → call.instant = some at_ →
    ∀ name snapshot, snapshot < at_ →
      c'.resolveBisect name snapshot = c.resolveBisect name snapshot
  /-- A refused call leaves every answer. -/
  refused : ∀ call c' e, c.step call = (c', .error e) → c.SameAnswers c'
  /-- An index is of a live table, and of columns of it that are not its key. -/
  indexed : ∀ name d, c.index name = some d → ∃ current, c.openVersion d.table = some current ∧
    ∀ column ∈ d.columns, column ∈ current.schema.columns.map ColumnDef.name ∧
      (current.schema.columns.map ColumnDef.name).head? ≠ some column

theorem Sound.kept (h : c.Sound) : c.Kept where
  timeline := h.timeline
  open_last name v hv hopen := (h.timeline name).open_last hv hopen
  unique name snapshot v hv w hw hcv hcw := (h.timeline name).unique hv hw hcv hcw
  resolve_iff name snapshot schema := by
    rw [h.resolveBisect_eq, Option.map_eq_some_iff]
    simp only [(h.timeline name).find?_eq_some, and_assoc]
  scan := h.resolveBisect_eq
  accepted call c' answer at_ hc hat name snapshot hlt :=
    h.resolve_before (step_ok hc) hat hlt name
  refused call c' e hc := by
    obtain ⟨next, -, rfl⟩ := step_error hc
    exact ⟨fun _ _ => rfl, fun _ => rfl, fun _ => rfl, fun _ => rfl, fun _ => rfl, rfl⟩
  indexed := h.indexed

theorem sound_after (calls : List CatalogCall) :
    (Runs.after (fun c call => (step c call).1) {} calls).Sound := by
  induction calls using List.reverseRecOn with
  | nil => exact sound_empty
  | append_singleton calls call ih =>
    rw [Runs.after_concat]
    exact ih.step call

/-- **The timeline of schemas is kept by every sequence of calls**, and no identifier is issued
twice. -/
theorem catalog_timeline (calls : List CatalogCall) :
    (Runs.after (fun c call => (step c call).1) {} calls).Kept ∧ (issued {} calls).Nodup :=
  ⟨(sound_after calls).kept, (issued_sorted calls {}).1.imp fun h => h.ne⟩

end Catalog

end SteleDb
