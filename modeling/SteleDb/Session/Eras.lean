import SteleDb.Session.Catalog

/-!
# The eras of a table name

A create opens an era of its name and a drop ends it, so the schema versions of a name follow one
another on the system-time axis.  `Catalog.Ordered c mark` says so, and that nothing in the catalog
is later than `mark`, the clock's mark.

* `Catalog.createTable_ok`, `Catalog.dropTable_ok` : what an accepted statement has checked and
  does;
* `Catalog.Ordered.createTable`, `Catalog.Ordered.dropTable` : both keep the eras in order;
* `Catalog.Ordered.open_of_resolve` : a name that resolves at the mark is live;
* `Catalog.Ordered.exists_resolve` : a name that has had an era resolves at some instant.
-/

namespace SteleDb

namespace Catalog

variable {c c' : Catalog} {name t : Name} {at_ mark : SystemTimeMicros} {id : SchemaId}

/-- The schema versions of a name, oldest first. -/
def versions (c : Catalog) (name : Name) : List SchemaVersion := c.tables[name]?.getD []

theorem openVersion_eq (c : Catalog) (name : Name) :
    c.openVersion name = (c.versions name).getLast?.filter fun v => v.sysTo = systemTimeOpen := rfl

theorem openVersion_eq_some {v : SchemaVersion} :
    c.openVersion name = some v ↔
      (c.versions name).getLast? = some v ∧ v.sysTo = systemTimeOpen := by
  rw [openVersion_eq, Option.filter_eq_some_iff, decide_eq_true_iff]

theorem createTable_ok {columns : List ColumnDef} {validTime : Option ValidTimeSpec}
    (h : c.createTable name columns validTime at_ = .ok (c', id)) :
    at_ < systemTimeOpen ∧ c.openVersion name = none ∧
      (∀ last, (c.versions name).getLast? = some last → last.sysTo ≤ at_) ∧
      c' = { c with
        tables := c.tables.insert name (c.versions name ++
          [⟨at_, systemTimeOpen, ⟨c.nextSchemaId, columns, validTime⟩⟩])
        nextSchemaId := c.nextSchemaId + 1 } := by
  unfold createTable at h
  split_ifs at h with hat hopen hid
  split at h
  · cases h
  · dsimp only at h
    split at h
    · cases h
    · next hlast =>
      cases h
      refine ⟨not_le.1 hat, ?_, fun last hl => ?_, rfl⟩
      · simpa using hopen
      · rw [Option.filter_eq_none_iff] at hlast
        have hnot := hlast last hl
        simpa using hnot

theorem dropTable_ok (h : c.dropTable name at_ = .ok (c', id)) :
    ∃ current, c.openVersion name = some current ∧ at_ < systemTimeOpen ∧ current.sysFrom < at_ ∧
      c' = { c with
        tables := c.tables.insert name
          ((c.versions name).dropLast ++ [{ current with sysTo := at_ }])
        indexes := c.indexes.filter fun _ def_ => def_.table ≠ name } := by
  unfold dropTable at h
  split at h
  · cases h
  · next current hcur =>
    split_ifs at h with hat hfrom
    cases h
    exact ⟨current, hcur, not_le.1 hat, not_le.1 hfrom, rfl⟩

theorem versions_createTable {columns : List ColumnDef} {validTime : Option ValidTimeSpec}
    (h : c.createTable name columns validTime at_ = .ok (c', id)) :
    c'.versions t = if name = t then c.versions name ++
      [⟨at_, systemTimeOpen, ⟨c.nextSchemaId, columns, validTime⟩⟩] else c.versions t := by
  obtain ⟨-, -, -, rfl⟩ := createTable_ok h
  rw [versions, OrdMap.getElem?_insert]
  split <;> rfl

/-- The versions of a live name are those of earlier eras and the open one. -/
theorem versions_of_open {current : SchemaVersion} (h : c.openVersion name = some current) :
    c.versions name = (c.versions name).dropLast ++ [current] := by
  obtain ⟨hlast, -⟩ := openVersion_eq_some.1 h
  rcases List.eq_nil_or_concat (c.versions name) with hnil | ⟨vs, last, hvs⟩
  · rw [hnil] at hlast
    cases hlast
  · rw [List.concat_eq_append] at hvs
    rw [hvs, List.getLast?_concat] at hlast
    cases hlast
    rw [hvs, List.dropLast_concat]

theorem versions_dropTable {current : SchemaVersion} (hcur : c.openVersion name = some current)
    (h : c.dropTable name at_ = .ok (c', id)) :
    c'.versions t = if name = t then (c.versions name).dropLast ++ [{ current with sysTo := at_ }]
      else c.versions t := by
  obtain ⟨current', hcur', -, -, rfl⟩ := dropTable_ok h
  cases hcur.symm.trans hcur'
  rw [versions, OrdMap.getElem?_insert]
  split <;> rfl

/-- Live names after a create. -/
theorem isSome_openVersion_createTable {columns : List ColumnDef}
    {validTime : Option ValidTimeSpec}
    (h : c.createTable name columns validTime at_ = .ok (c', id)) :
    (c'.openVersion t).isSome = (name = t || (c.openVersion t).isSome) := by
  rw [openVersion_eq, versions_createTable h]
  by_cases ht : name = t
  · simp [ht]
  · simp [ht, openVersion_eq]

/-- Live names after a drop. -/
theorem isSome_openVersion_dropTable (h : c.dropTable name at_ = .ok (c', id)) :
    (c'.openVersion t).isSome = (name ≠ t && (c.openVersion t).isSome) := by
  obtain ⟨current, hcur, hat, -, -⟩ := dropTable_ok h
  rw [openVersion_eq, versions_dropTable hcur h]
  by_cases ht : name = t
  · simp [ht, hat.ne]
  · simp [ht, openVersion_eq]

/-- A live name has had an era. -/
theorem versions_ne_nil (h : (c.openVersion name).isSome) : c.versions name ≠ [] := fun hnil => by
  rw [openVersion_eq, hnil] at h
  cases h

/-! Indexes are no part of the eras. -/

theorem createIndex_ok {def_ : IndexDef} (h : c.createIndex def_ = .ok c') :
    ∃ indexes, c' = { c with indexes } := by
  unfold createIndex at h
  split_ifs at h
  split at h
  · cases h
  · split at h <;> cases h
    exact ⟨_, rfl⟩

theorem dropIndex_ok (h : c.dropIndex name = .ok c') : ∃ indexes, c' = { c with indexes } := by
  unfold dropIndex at h
  split_ifs at h
  cases h
  exact ⟨_, rfl⟩

/-- The eras of every name follow one another, and nothing is later than `mark`. -/
structure Ordered (c : Catalog) (mark : SystemTimeMicros) : Prop where
  chain : ∀ name, (c.versions name).Pairwise fun v w => v.sysTo ≤ w.sysFrom
  era : ∀ name, ∀ v ∈ c.versions name,
    v.sysFrom < v.sysTo ∧ v.sysFrom ≤ mark ∧ (v.sysTo = systemTimeOpen ∨ v.sysTo ≤ mark)

namespace Ordered

theorem empty (mark : SystemTimeMicros) : Ordered {} mark where
  chain name := by simp [versions]
  era name v hv := by simp [versions] at hv

theorem mono (h : c.Ordered mark) {mark' : SystemTimeMicros} (hle : mark ≤ mark') :
    c.Ordered mark' where
  chain := h.chain
  era name v hv := by
    obtain ⟨hlt, hfrom, hto⟩ := h.era name v hv
    exact ⟨hlt, hfrom.trans hle, hto.imp_right fun hto => hto.trans hle⟩

theorem withIndexes (h : c.Ordered mark) (indexes : OrdMap Name IndexDef) :
    Ordered { c with indexes } mark := ⟨h.chain, h.era⟩

theorem createTable (h : c.Ordered mark) (hle : mark ≤ at_) {columns : List ColumnDef}
    {validTime : Option ValidTimeSpec}
    (hc : c.createTable name columns validTime at_ = .ok (c', id)) : c'.Ordered at_ := by
  obtain ⟨hat, hopen, hlast, -⟩ := createTable_ok hc
  have hm := h.mono hle
  have hends : ∀ v ∈ c.versions name, v.sysTo ≤ at_ := fun v hv => by
    rcases List.eq_nil_or_concat (c.versions name) with hnil | ⟨vs, last, hvs⟩
    · rw [hnil] at hv
      cases hv
    · rw [List.concat_eq_append] at hvs
      have hl := hlast last (by rw [hvs, List.getLast?_concat])
      rw [hvs] at hv
      rcases List.mem_append.1 hv with hv | hv
      · have hch := h.chain name
        rw [hvs, List.pairwise_append] at hch
        have hera := (h.era name last (by rw [hvs]; simp)).1
        exact ((hch.2.2 v hv last (by simp)).trans hera.le).trans hl
      · rwa [List.mem_singleton.1 hv]
  refine ⟨fun t => ?_, fun t v hv => ?_⟩
  · rw [versions_createTable hc]
    split_ifs with ht
    · refine List.pairwise_append.2 ⟨h.chain name, List.pairwise_singleton _ _, fun v hv w hw => ?_⟩
      rw [List.mem_singleton.1 hw]
      exact hends v hv
    · exact h.chain t
  · rw [versions_createTable hc] at hv
    split_ifs at hv with ht
    · rcases List.mem_append.1 hv with hv | hv
      · exact hm.era name v hv
      · rw [List.mem_singleton.1 hv]
        exact ⟨hat, le_rfl, .inl rfl⟩
    · exact hm.era t v hv

theorem dropTable (h : c.Ordered mark) (hle : mark ≤ at_)
    (hc : c.dropTable name at_ = .ok (c', id)) : c'.Ordered at_ := by
  obtain ⟨current, hcur, hat, hfrom, -⟩ := dropTable_ok hc
  have hm := h.mono hle
  have hvs := versions_of_open hcur
  refine ⟨fun t => ?_, fun t v hv => ?_⟩
  · rw [versions_dropTable hcur hc]
    split_ifs with ht
    · have hch := h.chain name
      rw [hvs, List.pairwise_append] at hch
      refine List.pairwise_append.2 ⟨hch.1, List.pairwise_singleton _ _, fun v hv w hw => ?_⟩
      rw [List.mem_singleton.1 hw]
      exact hch.2.2 v hv current (by simp)
    · exact h.chain t
  · rw [versions_dropTable hcur hc] at hv
    split_ifs at hv with ht
    · rcases List.mem_append.1 hv with hv | hv
      · exact hm.era name v (by rw [hvs]; exact List.mem_append_left _ hv)
      · rw [List.mem_singleton.1 hv]
        exact ⟨hfrom, hfrom.le, .inr le_rfl⟩
    · exact hm.era t v hv

/-- At or after the start of its last era a name resolves to that era's schema, or to none. -/
theorem resolve_of_le (h : c.Ordered mark) {vs : List SchemaVersion} {last : SchemaVersion}
    (hvs : c.versions t = vs ++ [last]) {snapshot : SystemTimeMicros}
    (hle : last.sysFrom ≤ snapshot) :
    c.resolve t snapshot = if snapshot < last.sysTo then some last.schema else none := by
  have hall : ∀ v ∈ c.versions t, decide (v.sysFrom ≤ snapshot) = true := fun v hv => by
    rw [decide_eq_true_iff]
    rw [hvs] at hv
    rcases List.mem_append.1 hv with hv | hv
    · have hch := h.chain t
      rw [hvs, List.pairwise_append] at hch
      have hera := (h.era t v (by rw [hvs]; exact List.mem_append_left _ hv)).1
      exact (hera.le.trans (hch.2.2 v hv last (by simp))).trans hle
    · rwa [List.mem_singleton.1 hv]
  have hresolve : c.resolve t snapshot =
      (((c.versions t).takeWhile fun v => v.sysFrom ≤ snapshot).getLast?.filter
        fun v => snapshot < v.sysTo).map SchemaVersion.schema := rfl
  rw [hresolve, List.takeWhile_eq_self_iff.2 hall, hvs, List.getLast?_concat]
  split_ifs with hlt
  · rw [Option.filter_some_pos (by simpa using hlt)]
    rfl
  · rw [Option.filter_some_neg (by simpa using hlt)]
    rfl

/-- A name that resolves at the mark is live. -/
theorem open_of_resolve (h : c.Ordered mark) (hr : (c.resolve t mark).isSome) :
    (c.openVersion t).isSome := by
  rcases List.eq_nil_or_concat (c.versions t) with hnil | ⟨vs, last, hvs⟩
  · have hnone : c.resolve t mark = none := by
      change ((((c.versions t).takeWhile _).getLast?.filter _).map _) = _
      rw [hnil]
      rfl
    rw [hnone] at hr
    cases hr
  · rw [List.concat_eq_append] at hvs
    obtain ⟨-, hfrom, hto⟩ := h.era t last (by rw [hvs]; simp)
    rw [h.resolve_of_le hvs hfrom] at hr
    split_ifs at hr with hlt
    · have hopen : last.sysTo = systemTimeOpen := hto.resolve_right (not_le.2 hlt)
      rw [openVersion_eq_some.2 ⟨by rw [hvs, List.getLast?_concat], hopen⟩]
      rfl
    · cases hr

/-- A name that has had an era resolves at some instant. -/
theorem exists_resolve (h : c.Ordered mark) (hne : c.versions t ≠ []) :
    ∃ snapshot, (c.resolve t snapshot).isSome := by
  rcases List.eq_nil_or_concat (c.versions t) with hnil | ⟨vs, last, hvs⟩
  · exact absurd hnil hne
  · rw [List.concat_eq_append] at hvs
    refine ⟨last.sysFrom, ?_⟩
    rw [h.resolve_of_le hvs le_rfl, if_pos (h.era t last (by rw [hvs]; simp)).1]
    rfl

end Ordered

end Catalog

end SteleDb
