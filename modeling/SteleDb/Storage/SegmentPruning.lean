import SteleDb.Storage.SegmentSealed

/-!
# What an opened segment rules out

The tests that a scan asks of an opened file before it reads any chunk: the statistics of the
segment and of its row groups, the filter over the keys, and the summaries of the valid axis.

* `SegmentFileWriter.never_prunes` : no stored row is ruled out by any of them.
-/

namespace SteleDb

open Intervals

namespace SegmentFile

/-- The number of rows of each row group. -/
def rowGroupRowCounts (r : SegmentFile) : List ℕ := r.footer.rowGroups.map FileRowGroup.rowCount

/-- The statistics of the segment, tombstones included. -/
def zoneMap (r : SegmentFile) : StatMap :=
  zoneMapFromMetas <|
    (r.footer.rowGroups.flatMap FileRowGroup.columns ++ r.footer.retractions).map
      ChunkMeta.toColumnChunkMeta

/-- The statistics of each row group. -/
def rowGroupZoneMaps (r : SegmentFile) : List StatMap :=
  r.footer.rowGroups.map fun rg => zoneMapFromMetas (rg.columns.map ChunkMeta.toColumnChunkMeta)

/-- Some row that has begun by the snapshot may satisfy the predicate. -/
def mightContain (r : SegmentFile) (p : StatPredicate) (snapshot : SystemTimeMicros) : Bool :=
  r.zoneMap.mightContain p snapshot

/-- Some row may have the key; none if the filter panics. -/
def mightContainKey (r : SegmentFile) (key : Bytes) : Option Bool :=
  BloomWords.mightContainKey r.footer.bloom key

/-- Some row may be valid at `point`. -/
def mightContainValid (r : SegmentFile) (point : ℤ) : Bool :=
  r.footer.sections.validIntervals.all fun summary => summary.covers point

/-- Some row may be valid in `[lo, hi)`. -/
def mightOverlapValid (r : SegmentFile) (lo hi : ℤ) : Bool :=
  r.footer.sections.validIntervals.all fun summary => summary.overlaps lo hi

/-- Row group `g` may have a row that is valid at `point`. -/
def rowGroupMightContainValid (r : SegmentFile) (g : ℕ) (point : ℤ) : Bool :=
  r.footer.sections.rowGroupMightContainValid g point

/-- Row group `g` may have a row that is valid in `[lo, hi)`. -/
def rowGroupMightOverlapValid (r : SegmentFile) (g : ℕ) (lo hi : ℤ) : Bool :=
  r.footer.sections.rowGroupMightOverlapValid g lo hi

end SegmentFile

/-! ### Summaries -/

/-- A summary does not rule out what it covers. -/
theorem Summarises.admits {cap : ℕ} {rows : List Version}
    {entry : Option ValidIntervalSummary} (h : Summarises cap rows entry) {v : Version}
    (hv : v ∈ rows)
    {i : ℤ × ℤ} (hi : v.validPair = some i) :
    (∀ point, Contains i point → (entry.all fun s => s.covers point) = true) ∧
      ∀ lo hi, (∃ t, Contains i t ∧ Contains (lo, hi) t) →
        (entry.all fun s => s.overlaps lo hi) = true := by
  refine ⟨fun point hpoint => ?_, fun lo hi' hw => ?_⟩
  · refine (Option.all_eq_true _ _).2 fun s hs => ?_
    obtain ⟨hwf, -, -, hcov⟩ := h s hs
    exact (ValidIntervalSummary.covers_iff hwf point).2 (hcov v hv i hi point hpoint)
  · refine (Option.all_eq_true _ _).2 fun s hs => ?_
    obtain ⟨hwf, -, -, hcov⟩ := h s hs
    obtain ⟨t, hit, hwt⟩ := hw
    obtain ⟨j, hj, hjt⟩ := hcov v hv i hi t hit
    exact (ValidIntervalSummary.overlaps_iff hwf lo hi').2 ⟨j, hj, t, hjt, hwt⟩

/-! ### Statistics -/

theorem EncodedChunk.typed_toMeta (c : EncodedChunk) : c.toMeta.toColumnChunkMeta.Typed :=
  ⟨fun _ he => StatBound.hasType_toEnd he, fun _ he => StatBound.hasType_toEnd he⟩

/-- The entries of a row group bound the cells of its rows. -/
theorem EncodedGroup.metasOf {w : SegmentFileWriter} {group : List Version} {g : RowGroupChunks}
    (h : EncodedGroup w group g) (hfit : ∀ v ∈ group, v.FitsColumns) :
    MetasOf w.validTime group (g.toMeta.columns.map ChunkMeta.toColumnChunkMeta) := by
  constructor
  · intro m hm
    obtain ⟨cm, hcm, rfl⟩ := List.mem_map.1 hm
    obtain ⟨c, -, rfl⟩ := List.mem_map.1 hcm
    exact c.typed_toMeta
  · intro v hv col x hx
    have hcol := mem_schema_of_cell hx
    obtain ⟨pairs, hpairs, hcolumns⟩ := h.columns
    obtain ⟨c, hc, rfl⟩ := List.mem_map.1 (h.cols.symm ▸ hcol)
    have hstats := statsOf_encodeColumn hcol hpairs hfit
      (EncodedColumn.encodeColumn_stats (hcolumns c hc))
    refine ⟨c.toMeta.toColumnChunkMeta, List.mem_map_of_mem (List.mem_map_of_mem hc), rfl, ?_⟩
    exact ⟨hstats.least x ⟨v, hv, hx⟩, hstats.greatest x ⟨v, hv, hx⟩⟩

namespace SealedFile

variable {w : SegmentFileWriter} (s : SealedFile w)

theorem typed_metas : ∀ m ∈ (s.fileFooter.rowGroups.flatMap FileRowGroup.columns ++
    s.fileFooter.retractions).map ChunkMeta.toColumnChunkMeta, m.Typed := by
  intro m hm
  obtain ⟨cm, hcm, rfl⟩ := List.mem_map.1 hm
  rcases List.mem_append.1 hcm with hcm | hcm
  · obtain ⟨rg, hrg, hcm⟩ := List.mem_flatMap.1 hcm
    obtain ⟨g, -, rfl⟩ := List.mem_map.1 hrg
    obtain ⟨c, -, rfl⟩ := List.mem_map.1 hcm
    exact c.typed_toMeta
  · obtain ⟨c, -, rfl⟩ := List.mem_map.1 hcm
    exact c.typed_toMeta

/-- The row group of some rows. -/
theorem exists_group {g : ℕ} {group : List Version} (h : w.groups[g]? = some group) :
    ∃ chunks, s.rowGroups[g]? = some chunks ∧ EncodedGroup w group chunks := by
  obtain ⟨hlt, rfl⟩ := List.getElem?_eq_some_iff.1 h
  have hlt' : g < s.rowGroups.length := s.groups.length_eq ▸ hlt
  exact ⟨_, List.getElem?_eq_getElem hlt', s.groups.get hlt hlt'⟩

end SealedFile

namespace SegmentFileWriter

/-- **The parts of the footer** that are modelled by themselves are those of the file: its
statistics are what `SegmentWriter.finish` seals, and its summaries of the valid axis what
`SegmentWriter.finishValid` does. -/
theorem parts_of_finish {w : SegmentFileWriter} {file : Bytes} (h : w.finish = .ok (some file))
    (hfile : file.length < 2 ^ 64) :
    ∃ r f v, SegmentFile.open file = .ok r ∧
      w.toSegmentWriter.finish = .ok f ∧ f.open = .ok ⟨r.zoneMap, r.rowGroupZoneMaps⟩ ∧
      w.toSegmentWriter.finishValid w.validIntervalCap = .ok (some v) ∧
        v.parse = .ok r.footer.sections := by
  obtain ⟨s, rfl⟩ := finish_eq_ok h
  obtain ⟨-, v, hv⟩ := encodeFooter_eq_ok s.encode
  refine ⟨⟨s.bytes, s.fileFooter⟩, _, v, SealedFile.open_eq hfile s.area, s.entries, ?_,
    by rw [s.summaries, hv], ?_⟩
  · have hdecode : ∀ c ∈ s.chunks, c.footerEntry.decode = .ok c.toMeta.toColumnChunkMeta :=
      fun c hc =>
      EncodedChunk.decode_entry (SealedFile.fits hfile hc)
    have hgroups : (s.rowGroups.map fun g => g.chunks.map EncodedChunk.footerEntry).mapM
        (fun entries => entries.mapM FooterEntry.decode) =
          .ok (s.rowGroups.map fun g => g.chunks.map fun c => c.toMeta.toColumnChunkMeta) := by
      rw [List.mapM_map]
      refine mapM_of_forall fun g hg => ?_
      rw [Function.comp_apply, List.mapM_map]
      exact mapM_of_forall fun c hc => hdecode c (s.mem_chunks_of_group hg hc)
    have htombstones : (s.retractions.map EncodedChunk.footerEntry).mapM FooterEntry.decode =
        .ok (s.retractions.map fun c => c.toMeta.toColumnChunkMeta) := by
      rw [List.mapM_map]
      exact mapM_of_forall fun c hc => hdecode c (s.mem_chunks_of_tombstones hc)
    have hmetas : (s.rowGroups.map fun g =>
          g.chunks.map fun c => c.toMeta.toColumnChunkMeta).flatten ++
        s.retractions.map (fun c => c.toMeta.toColumnChunkMeta) =
          (s.fileFooter.rowGroups.flatMap FileRowGroup.columns ++ s.fileFooter.retractions).map
            ChunkMeta.toColumnChunkMeta := by
      simp [SealedFile.fileFooter, List.flatMap_def, RowGroupChunks.toMeta, List.map_flatten,
        Function.comp_def]
    have hrowGroups : (s.rowGroups.map fun g =>
          g.chunks.map fun c => c.toMeta.toColumnChunkMeta).map zoneMapFromMetas =
        s.fileFooter.rowGroups.map fun rg =>
          zoneMapFromMetas (rg.columns.map ChunkMeta.toColumnChunkMeta) := by
      simp [SealedFile.fileFooter, RowGroupChunks.toMeta, Function.comp_def]
    rw [SegmentFooter.open, hgroups, htombstones, SegmentFile.zoneMap, SegmentFile.rowGroupZoneMaps,
      ← hmetas, ← hrowGroups]
    rfl
  · obtain ⟨-, hsegment, hlength, hentries⟩ := s.sectionsOf.fit
    rw [s.groups.length_eq] at hlength
    exact ValidSections.parse_encode hv hsegment fun ss hss => ⟨hlength ss hss, hentries ss hss⟩

/-- **A sealed segment never rules out a stored row.**  The file opens, with as many row groups as
rows were grouped into.  A stored row is ruled out neither by the filter over the keys, nor, if it
has begun by the snapshot and satisfies the predicate, by the statistics, nor, where it is valid, by
the summaries of the valid axis; the statistics and the summaries of its row group do not rule it
out either. -/
theorem never_prunes (w : SegmentFileWriter) (hfit : ∀ v ∈ w.rows, v.FitsColumns) {file : Bytes}
    (h : w.finish = .ok (some file)) (hfile : file.length < 2 ^ 64) :
    ∃ r, SegmentFile.open file = .ok r ∧ w.groups.flatten = w.rows ∧
      r.rowGroupRowCounts = w.groups.map List.length ∧
      ∀ (g : ℕ) group v, w.groups[g]? = some group → v ∈ group →
        r.mightContainKey v.businessKey = some true ∧
        (∀ snapshot (p : StatPredicate), v.sysFrom ≤ snapshot → p.Holds (v.cell w.validTime) →
          r.mightContain p snapshot = true ∧
            ∃ z, r.rowGroupZoneMaps[g]? = some z ∧ z.mightContain p snapshot = true) ∧
        ∀ i, v.validPair = some i →
          (∀ point, Contains i point →
            r.mightContainValid point = true ∧ r.rowGroupMightContainValid g point = true) ∧
          ∀ lo hi, (∃ t, Contains i t ∧ Contains (lo, hi) t) →
            r.mightOverlapValid lo hi = true ∧ r.rowGroupMightOverlapValid g lo hi = true := by
  obtain ⟨s, rfl⟩ := finish_eq_ok h
  refine ⟨⟨s.bytes, s.fileFooter⟩, SealedFile.open_eq hfile s.area, w.flatten_groups, ?_,
    fun g group v hg hv => ?_⟩
  · have hcounts : List.Forall₂ (· = ·) (w.groups.map List.length)
        (s.rowGroups.map RowGroupChunks.rowCount) := by
      rw [List.forall₂_map_left_iff, List.forall₂_map_right_iff]
      exact s.groups.imp fun _ _ hgroup => hgroup.rowCount.symm
    rw [List.forall₂_eq_eq_eq] at hcounts
    rw [hcounts, SegmentFile.rowGroupRowCounts, SealedFile.fileFooter, List.map_map]
    rfl
  have hgroup : group ∈ w.groups := List.mem_of_getElem? hg
  have hrow : v ∈ w.rows := by
    rw [← w.flatten_groups]
    exact List.mem_flatten.2 ⟨group, hgroup, hv⟩
  have hfitGroup : ∀ v ∈ group, v.FitsColumns := by
    intro v hv
    refine hfit v ?_
    rw [← w.flatten_groups]
    exact List.mem_flatten.2 ⟨group, hgroup, hv⟩
  obtain ⟨chunks, hchunks, hencoded⟩ := s.exists_group hg
  refine ⟨?_, fun snapshot p hs hp => ?_, fun i hi => ?_⟩
  · -- the filter has the keys of the rows
    rw [SegmentFile.mightContainKey, SealedFile.fileFooter]
    cases hbloom : s.bloom with
    | none => rfl
    | some f =>
      obtain ⟨k, hholds⟩ := s.sectionsOf.keys f hbloom
      exact hholds.maybeContains (List.mem_map_of_mem hrow)
  · have hmetas := hencoded.metasOf hfitGroup
    have hsub : ∀ m ∈ chunks.toMeta.columns.map ChunkMeta.toColumnChunkMeta,
        m ∈ (s.fileFooter.rowGroups.flatMap FileRowGroup.columns ++
          s.fileFooter.retractions).map ChunkMeta.toColumnChunkMeta := by
      intro m hm
      obtain ⟨cm, hcm, rfl⟩ := List.mem_map.1 hm
      have hrg : chunks.toMeta ∈ s.fileFooter.rowGroups :=
        List.mem_map_of_mem (List.mem_of_getElem? hchunks)
      exact List.mem_map_of_mem
        (List.mem_append_left _ (List.mem_flatMap.2 ⟨chunks.toMeta, hrg, hcm⟩))
    refine ⟨(hmetas.coversRow hsub s.typed_metas hv).mightContain rfl hs hp,
      zoneMapFromMetas (chunks.toMeta.columns.map ChunkMeta.toColumnChunkMeta), ?_,
      (hmetas.coversRow (fun m hm => hm) hmetas.typed hv).mightContain rfl hs hp⟩
    rw [SegmentFile.rowGroupZoneMaps, SealedFile.fileFooter, List.map_map,
      List.getElem?_map, hchunks]
    rfl
  · obtain ⟨segment, entries, hsections, hsum, hall⟩ := s.sectionsOf.summaries
    obtain ⟨hpoint, hwindow⟩ := hsum.admits hrow hi
    -- the entry of the row group, if the segment has any
    have hentry : ∀ entry, (segment.map fun _ => entries).bind (·[g]?) = some entry →
        Summarises w.validIntervalCap group entry := by
      intro entry hentry
      obtain ⟨xs, hxs, hget⟩ := Option.bind_eq_some_iff.1 hentry
      obtain ⟨-, -, rfl⟩ := Option.map_eq_some_iff.1 hxs
      obtain ⟨hlt, rfl⟩ := List.getElem?_eq_some_iff.1 hg
      obtain ⟨hlt', rfl⟩ := List.getElem?_eq_some_iff.1 hget
      exact hall.get hlt hlt'
    have hfooter : (SegmentFile.mk s.bytes s.fileFooter).footer.sections =
        ⟨segment, segment.map fun _ => entries⟩ := hsections
    refine ⟨fun point hp => ⟨?_, ?_⟩, fun lo hi' hw => ⟨?_, ?_⟩⟩
    · rw [SegmentFile.mightContainValid, hfooter]
      exact hpoint point hp
    · rw [SegmentFile.rowGroupMightContainValid, hfooter]
      refine (Option.all_eq_true _ _).2 fun entry he => ?_
      exact ((hentry entry he).admits hv hi).1 point hp
    · rw [SegmentFile.mightOverlapValid, hfooter]
      exact hwindow lo hi' hw
    · rw [SegmentFile.rowGroupMightOverlapValid, hfooter]
      refine (Option.all_eq_true _ _).2 fun entry he => ?_
      exact ((hentry entry he).admits hv hi).2 lo hi' hw

/-- The key 2, valid from somewhere between -5 and 0. -/
def keyTwo : StatPredicate :=
  .and [.eq .businessKey (.bytes [2]), .range .validFrom (.i64 (-5)) (.i64 0)]

/-- The second row of `threeRows`, whose file has a filter and summaries. -/
theorem never_prunes_threeRows : ∃ file r z,
    (({ validTime := true } : SegmentWriter).withMaxRowGroupRows 2).pushAll threeRows.rows
      threeRows.retractions = .ok threeRows.toSegmentWriter ∧
    threeRows.finish = .ok (some file) ∧ SegmentFile.open file = .ok r ∧
    r.mightContainKey [2] = some true ∧
    r.mightContain keyTwo 15 = true ∧
    r.rowGroupZoneMaps[0]? = some z ∧ z.mightContain keyTwo 15 = true ∧
    r.mightContainValid (-3) = true ∧ r.rowGroupMightContainValid 0 (-3) = true ∧
    r.mightOverlapValid (-9) (-2) = true ∧ r.rowGroupMightOverlapValid 0 (-9) (-2) = true := by
  obtain ⟨file, h, hfile⟩ := finish_threeRows
  obtain ⟨r, hopen, -, -, hall⟩ := never_prunes threeRows (by decide) h hfile
  obtain ⟨hkey, hstats, hvalid⟩ := hall 0 (threeRows.rows.take 2)
    (.mkOpen [2] 10 1 ⟨1, 10, [7]⟩ (some (reframePayload (-3) 8 [9, 9]))) (by decide) (by decide)
  have hholds : keyTwo.Holds (Version.cell
      (.mkOpen [2] 10 1 ⟨1, 10, [7]⟩ (some (reframePayload (-3) 8 [9, 9]))) true) :=
    ⟨rfl, ⟨.i64 (-3), by decide, by simp [ZoneBound.Le], by simp [ZoneBound.Le]⟩, trivial⟩
  obtain ⟨hsegment, z, hz, hgroup⟩ := hstats 15 keyTwo (by decide) hholds
  obtain ⟨hpoint, hwindow⟩ := hvalid (-3, 8) (by decide)
  obtain ⟨hat, hatGroup⟩ := hpoint (-3) (by decide)
  obtain ⟨hin, hinGroup⟩ := hwindow (-9) (-2) ⟨-3, by decide, by decide⟩
  exact ⟨file, r, z, pushed_threeRows, h, hopen, hkey, hsegment, hz, hgroup, hat, hatGroup, hin,
    hinGroup⟩

end SegmentFileWriter

end SteleDb
