import SteleDb.Storage.SegmentFile

/-!
# Sealed segments are read back

What the reader of a segment file makes of the bytes that the writer produced: the footer, each
chunk, each column, and from the columns the versions and the tombstones.

* `SegmentFile.open_of_reads` : a file opens, whatever its chunk area holds;
* `readChunkPayload_frame` : a chunk is read from its place;
* `crc_of_readChunkPayload` : what is read there has the checksum that stands behind it.
-/

namespace SteleDb

open Extents (slice)
open SegmentCursor

/-! ### The footer -/

namespace EncodedChunk

/-- What the reader makes of the entry of a chunk. -/
def toMeta (c : EncodedChunk) : ChunkMeta where
  columnId := c.col
  statMin := c.column.stats.1.toEnd c.col.ty
  statMax := c.column.stats.2.toEnd c.col.ty
  codec := c.column.codec
  offset := c.offset
  length := c.length
  valueCount := c.valueCount

/-- The fields of a chunk fit their places, and the reader accepts its statistics. -/
structure Fits (c : EncodedChunk) : Prop where
  accepted₁ : c.column.stats.1.Accepted c.col.ty
  accepted₂ : c.column.stats.2.Accepted c.col.ty
  stop : c.offset + c.length < 2 ^ 64
  valueCount : c.valueCount < 2 ^ 32

theorem statFlags_spec (c : EncodedChunk) : c.statFlags < 256 ^ 1 ∧
    c.statFlags.testBit 0 = decide (c.column.stats.1 = .unbounded) ∧
      c.statFlags.testBit 1 = decide (c.column.stats.2 = .unbounded) := by
  rw [statFlags]
  by_cases h₁ : c.column.stats.1 = .unbounded <;> by_cases h₂ : c.column.stats.2 = .unbounded <;>
    simp only [h₁, h₂, if_true, if_false] <;> decide

/-- **The entry of a chunk is read back.** -/
theorem reads_entry {c : EncodedChunk} (h : c.Fits) {bytes : Bytes} (hb : c.encodeMeta = .ok bytes)
    (disagrees : String) : Cursor.Reads (parseChunkMeta c.valueCount disagrees) bytes c.toMeta := by
  obtain ⟨hflags, hmin, hmax⟩ := c.statFlags_spec
  have hstop := h.stop
  rw [encodeMeta] at hb
  split_ifs at hb with hminLen hmaxLen
  cases hb
  refine (reads_uint c.col.toU16_lt).bind ((Cursor.Reads.ofOption _ (ColumnId.fromU16_toU16 _)).bind
    ((reads_uint c.column.codec.asByte_lt).bind
      ((Cursor.Reads.ofOption _ (Codec.fromByte_asByte _)).bind
    ((reads_uint hflags).bind ((reads_uint (by omega)).bind ((reads_uint (by omega)).bind
    ((reads_uint h.valueCount).bind ((reads_uint (by decide)).bind
    ((reads_uint (by omega)).bind ((reads_bytes _).bind ((reads_uint (by omega)).bind
    ((reads_bytes _).bindLast ?_))))))))))))
  rw [hmin, hmax]
  refine (reads_checked (StatBound.decodeStat h.accepted₁)).bind
    ((reads_checked (StatBound.decodeStat h.accepted₂)).bind ?_)
  rw [if_neg (not_not.2 rfl)]
  exact Cursor.Reads.pure _

end EncodedChunk

/-- Entries one after another. -/
theorem reads_mapM {α γ : Type} {p : SegmentCursor α} {encode : γ → Except SegmentError Bytes}
    {f : γ → α} {cs : List γ} {entries : List Bytes} (h : cs.mapM encode = .ok entries)
    (hp : ∀ c ∈ cs, ∀ bytes, encode c = .ok bytes → Cursor.Reads p bytes (f c)) :
    Cursor.Reads (p.times cs.length) entries.flatten (cs.map f) := by
  have hall := mapM_eq_ok_iff_forall₂.1 h
  have hreads : List.Forall₂ (fun a l => Cursor.Reads p l a) (cs.map f) entries := by
    rw [List.forall₂_map_left_iff]
    refine List.forall₂_iff_zip.2 ⟨hall.length_eq, fun hz => ?_⟩
    exact hp _ (List.of_mem_zip hz).1 _ (List.forall₂_zip hall hz)
  have htimes := Cursor.Reads.times hreads
  rwa [List.length_map] at htimes

namespace RowGroupChunks

/-- What the reader makes of the entries of a row group. -/
def toMeta (g : RowGroupChunks) : FileRowGroup := ⟨g.rowCount, g.chunks.map EncodedChunk.toMeta⟩

/-- The chunks fit, and have as many cells as the group has rows. -/
structure Fits (g : RowGroupChunks) : Prop where
  chunks : ∀ c ∈ g.chunks, c.Fits ∧ c.valueCount = g.rowCount
  rowCount : g.rowCount < 2 ^ 32

theorem reads_entries {g : RowGroupChunks} (h : g.Fits) {bytes : Bytes}
    (hb : g.encodeMeta = .ok bytes) : Cursor.Reads parseRowGroup bytes g.toMeta := by
  rw [encodeMeta] at hb
  split_ifs at hb with hcount
  obtain ⟨entries, hentries, hb⟩ := exists_of_bind_ok hb
  cases hb
  refine (reads_uint h.rowCount).bind ((reads_uint (by omega)).bind ?_)
  refine Cursor.Reads.map (reads_mapM hentries fun c hc bytes hbytes => ?_)
    (FileRowGroup.mk g.rowCount)
  obtain ⟨hfits, hvalues⟩ := h.chunks c hc
  rw [← hvalues]
  exact c.reads_entry hfits hbytes _

end RowGroupChunks

theorem footerFlags_spec (bloom valid rowGroups : Bool) : footerFlags bloom valid rowGroups < 8 ∧
    (footerFlags bloom valid rowGroups).testBit 0 = bloom ∧
      (footerFlags bloom valid rowGroups).testBit 1 = valid ∧
        (footerFlags bloom valid rowGroups).testBit 2 = rowGroups := by
  cases bloom <;> cases valid <;> cases rowGroups <;> decide

/-- Sections that the reader accepts. -/
structure SectionsFit (bloom : Option BloomWords) (sections : ValidSections) (rowGroupCount : ℕ) :
    Prop where
  bloom : ∀ f, bloom = some f → ∃ k keys, f.Holds (2 ^ k) keys
  segment : ∀ s, sections.validIntervals = some s → s.WellFormed ∧ s.intervals ≠ []
  length : ∀ ss, sections.rowGroupValidIntervals = some ss → ss.length = rowGroupCount
  rowGroups : ∀ ss, sections.rowGroupValidIntervals = some ss →
    ∀ s, some s ∈ ss → s.WellFormed ∧ s.intervals ≠ []

/-- A section that is written is read back. -/
theorem reads_section {α : Type} {encode : α → Option Bytes}
    (decode : Bytes → Except String (α × ℕ))
    {x : Option α} {bytes : Bytes} (h : encodeSection encode x = some bytes) (what : String)
    (hread : ∀ a, x = some a → ∀ bytes, encode a = some bytes → ∀ rest,
      decode (bytes ++ rest) = .ok (a, bytes.length)) :
    Cursor.Reads (ValidFooter.decodeSection decode what x.isSome : SegmentCursor (Option α))
      bytes x :=
  fun rest => decodeSection_encodeSection decode hread h what rest

theorem reads_sections {bloom : Option BloomWords} {sections : ValidSections} {n : ℕ}
    (h : SectionsFit bloom sections n) {first second third : Bytes}
    (hfirst : encodeSection BloomWords.encode bloom = some first)
    (hsecond : encodeSection ValidIntervalSummary.encode sections.validIntervals = some second)
    (hthird : encodeSection ValidIntervalSummary.encodePerRowGroup
      sections.rowGroupValidIntervals = some third) :
    Cursor.Reads (parseSections (footerFlags bloom.isSome sections.validIntervals.isSome
      sections.rowGroupValidIntervals.isSome) n) (first ++ (second ++ third))
        (bloom, sections) := by
  obtain ⟨-, h₀, h₁, h₂⟩ := footerFlags_spec bloom.isSome sections.validIntervals.isSome
    sections.rowGroupValidIntervals.isSome
  rw [parseSections, h₀, h₁, h₂]
  refine (reads_section decodeBloom hfirst _ fun f hf bytes hb rest => ?_).bind
    ((reads_section _ hsecond _ fun s hs bytes hb rest => ?_).bind
    ((reads_section _ hthird _ fun ss hss bytes hb rest => ?_).bindLast (Cursor.Reads.pure _)))
  · obtain ⟨k, keys, hholds⟩ := h.bloom f hf
    rw [decodeBloom, hholds.decode_encode hb]
    rfl
  · obtain ⟨hwf, hne⟩ := h.segment s hs
    exact ValidIntervalSummary.decode_encode hwf hne hb rest
  · rw [← h.length ss hss]
    exact ValidIntervalSummary.decodePerRowGroup_encode hb (h.rowGroups ss hss) rest

/-- **The footer is read back.** -/
theorem reads_footer {rowGroups : List RowGroupChunks} {retractions : List EncodedChunk}
    {bloom : Option BloomWords} {sections : ValidSections} {footer : Bytes}
    (h : encodeFooter rowGroups retractions bloom sections = .ok (some footer))
    (hgroups : ∀ g ∈ rowGroups, g.Fits) {n : ℕ} (hn : 0 < n)
    (hretractions : ∀ c ∈ retractions, c.Fits ∧ c.valueCount = n)
    (hsections : SectionsFit bloom sections rowGroups.length) :
    Cursor.Reads footerCursor footer ⟨rowGroups.map RowGroupChunks.toMeta,
      retractions.map EncodedChunk.toMeta, bloom, sections⟩ := by
  rw [encodeFooter] at h
  by_cases hfew : 2 ^ 32 ≤ rowGroups.length
  · rw [if_pos hfew] at h
    cases h
  rw [if_neg hfew] at h
  obtain ⟨groups, hg, h⟩ := exists_of_bind_ok h
  by_cases hfewTombstones : 2 ^ 32 ≤ retractions.length
  · simp only [if_pos hfewTombstones] at h
    cases h
  simp only [if_neg hfewTombstones] at h
  obtain ⟨tombstones, ht, h⟩ := exists_of_bind_ok h
  obtain ⟨first, hfirst, h⟩ := Option.bind_eq_some_iff.1 (Except.ok.inj h)
  obtain ⟨second, hsecond, h⟩ := Option.bind_eq_some_iff.1 h
  obtain ⟨third, hthird, h⟩ := Option.bind_eq_some_iff.1 h
  cases h
  obtain ⟨hflags, -⟩ := footerFlags_spec bloom.isSome sections.validIntervals.isSome
    sections.rowGroupValidIntervals.isSome
  -- the number of tombstones is that of the cells of the first chunk, if there is one
  obtain ⟨hcount, hempty⟩ : (retractions.head?.map EncodedChunk.valueCount).getD 0 < 256 ^ 4 ∧
      ((retractions.head?.map EncodedChunk.valueCount).getD 0 = 0 ↔
        retractions.map EncodedChunk.toMeta = []) := by
    cases retractions with
    | nil => simp
    | cons c rest =>
      obtain ⟨hc, hcn⟩ := hretractions c List.mem_cons_self
      have hlt := hc.valueCount
      simp only [List.head?_cons, Option.map_some, Option.getD_some, List.map_cons, reduceCtorEq,
        iff_false]
      omega
  have hentries : Cursor.Reads
      ((parseChunkMeta ((retractions.head?.map EncodedChunk.valueCount).getD 0)
      "retraction column value_count disagrees with retraction_count").times retractions.length)
      tombstones.flatten (retractions.map EncodedChunk.toMeta) := by
    refine reads_mapM ht fun c hc bytes hb => ?_
    have hhead : (retractions.head?.map EncodedChunk.valueCount).getD 0 = c.valueCount := by
      cases retractions with
      | nil => cases hc
      | cons c' rest =>
        rw [(hretractions c hc).2, ← (hretractions c' List.mem_cons_self).2]
        rfl
    rw [hhead]
    exact c.reads_entry (hretractions c hc).1 hb _
  refine (reads_uint (by decide)).bind ?_
  rw [if_neg (by decide)]
  refine (reads_uint (by omega)).bind ?_
  rw [if_neg (by omega)]
  refine (reads_uint (by omega)).bind ((reads_mapM hg fun g hgm bytes hb =>
    g.reads_entries (hgroups g hgm) hb).bind ((reads_uint hcount).bind ((reads_uint (by omega)).bind
    (hentries.bind ?_))))
  rw [if_neg (not_not.2 hempty)]
  exact (reads_sections hsections hfirst hsecond hthird).bindLast (Cursor.Reads.pure _)

/-! ### The file -/

/-- The bytes of a file, with a footer that is not necessarily the one that the trailer is for. -/
def fileBytes (chunks footer trailed : Bytes) : Bytes :=
  fileHeader ++ (chunks ++ (footer ++ fileTrailer trailed))

theorem length_fileHeader : fileHeader.length = segmentHeaderLen := by decide

theorem length_fileTrailer (footer : Bytes) : (fileTrailer footer).length = trailerLen := by
  rw [fileTrailer, List.length_append, List.length_append, length_crcBytes, length_leBytes]
  rfl

theorem length_fileBytes (chunks footer trailed : Bytes) :
    (fileBytes chunks footer trailed).length =
    segmentHeaderLen + chunks.length + footer.length + trailerLen := by
  simp only [fileBytes, List.length_append, length_fileHeader, length_fileTrailer]
  omega

theorem validateHeader_fileBytes (chunks footer trailed : Bytes) :
    validateHeader (fileBytes chunks footer trailed) = .ok () := by
  have hmagic : slice (fileBytes chunks footer trailed) 0 8 = headerMagic := by
    refine Extents.slice_of_eq [] (leBytes 2 formatVersion ++ (leBytes 2 0 ++ leBytes 4 0) ++
      (chunks ++ (footer ++ fileTrailer trailed))) ?_ rfl rfl
    rw [fileBytes, fileHeader, List.append_assoc, List.nil_append]
  have hversion : slice (fileBytes chunks footer trailed) 8 2 = leBytes 2 formatVersion := by
    refine Extents.slice_of_eq headerMagic (leBytes 2 0 ++ leBytes 4 0 ++
      (chunks ++ (footer ++ fileTrailer trailed))) ?_ rfl (length_leBytes 2 _)
    rw [fileBytes, fileHeader, List.append_assoc, List.append_assoc]
  have hvalue : leNat (leBytes 2 formatVersion) = formatVersion := by decide
  rw [validateHeader, hmagic, hversion, hvalue, length_fileBytes, if_neg (by omega),
    if_neg (not_not.2 rfl), if_neg (not_not.2 rfl)]

/-- The trailer says how long the footer is. -/
theorem footerLen_fileBytes (chunks footer : Bytes) {trailed : Bytes}
    (hfit : trailed.length < 2 ^ 32) :
    leNat (slice (fileBytes chunks footer trailed)
      ((fileBytes chunks footer trailed).length - trailerLen + 4) 4) = trailed.length := by
  have hslice : slice (fileBytes chunks footer trailed)
      ((fileBytes chunks footer trailed).length - trailerLen + 4) 4 = leBytes 4 trailed.length := by
    refine Extents.slice_of_eq (fileHeader ++ chunks ++ footer ++ crcBytes trailed) trailerMagic
      ?_ ?_
      (length_leBytes 4 _)
    · simp only [fileBytes, fileTrailer, List.append_assoc]
    · rw [length_fileBytes]
      simp only [List.length_append, length_fileHeader, length_crcBytes]
      omega
  rw [hslice, leNat_leBytes_mod, Nat.mod_eq_of_lt (by omega)]

/-- The footer is found, and read if it is the one that the trailer is for. -/
theorem readFooter_fileBytes {chunks footer trailed : Bytes}
    (hlen : footer.length = trailed.length) (hfit : trailed.length < 2 ^ 32) :
    readFooter (fileBytes chunks footer trailed) =
      if crc32c footer = crc32c trailed then parseFooter footer
      else .error (.corrupt "footer CRC mismatch") := by
  have htotal := length_fileBytes chunks footer trailed
  have hvalue := footerLen_fileBytes chunks footer hfit
  obtain ⟨off, hoff⟩ : ∃ off, off = segmentHeaderLen + chunks.length + footer.length := ⟨_, rfl⟩
  have hsub : (fileBytes chunks footer trailed).length - trailerLen = off := by omega
  have hbefore : (fileHeader ++ chunks ++ footer).length = off := by
    rw [List.length_append, List.length_append, length_fileHeader, hoff]
  have hcrc : slice (fileBytes chunks footer trailed) off 4 = crcBytes trailed := by
    refine Extents.slice_of_eq (fileHeader ++ chunks ++ footer)
      (leBytes 4 trailed.length ++ trailerMagic) ?_ hbefore (length_crcBytes _)
    simp only [fileBytes, fileTrailer, List.append_assoc]
  have hmagic : slice (fileBytes chunks footer trailed) (off + 8) 8 = trailerMagic := by
    refine Extents.slice_of_eq
      (fileHeader ++ chunks ++ footer ++ crcBytes trailed ++ leBytes 4 trailed.length) [] ?_ ?_ rfl
    · simp only [fileBytes, fileTrailer, List.append_assoc, List.append_nil]
    · rw [List.length_append, List.length_append, hbefore, length_crcBytes, length_leBytes]
  have hfooter : slice (fileBytes chunks footer trailed) (off - trailed.length) trailed.length =
      footer := by
    refine Extents.slice_of_eq (fileHeader ++ chunks) (fileTrailer trailed) ?_ ?_ hlen
    · simp only [fileBytes, List.append_assoc]
    · rw [List.length_append, length_fileHeader]
      omega
  rw [hsub] at hvalue
  rw [readFooter, hsub]
  dsimp only
  rw [hvalue, hmagic, hfooter, hcrc, leNat_crcBytes, if_neg (by omega),
    if_neg (not_not.2 rfl), if_neg (by omega), if_neg (by omega)]
  by_cases h : crc32c footer = crc32c trailed
  · rw [if_pos h, if_neg (not_not.2 (congrArg BitVec.toNat h))]
  · rw [if_neg h, if_pos fun heq => h (BitVec.eq_of_toNat_eq heq)]

/-- **A file opens**, whatever its chunk area holds. -/
theorem SegmentFile.open_of_reads {footer : Bytes} {f : FileFooter}
    (h : Cursor.Reads footerCursor footer f)
    (hfit : footer.length < 2 ^ 32) (chunks : Bytes) :
    SegmentFile.open (fileBytes chunks footer footer) =
      .ok ⟨fileBytes chunks footer footer, f⟩ := by
  have hparse : parseFooter footer = .ok f := readAll_of_reads h _
  rw [SegmentFile.open, validateHeader_fileBytes, readFooter_fileBytes rfl hfit, if_pos rfl, hparse]
  rfl

/-! ### Chunks -/

namespace EncodedChunk

variable {c : EncodedChunk}

@[simp] theorem length_header (c : EncodedChunk) : c.header.length = 12 := by
  simp only [header, List.length_append, length_leBytes, List.length_cons, List.length_nil]

@[simp] theorem length_frame (c : EncodedChunk) : c.frame.length = c.length := by
  rw [frame, List.length_append, List.length_append, length_header, length_crcBytes, length,
    chunkHeaderLen]
  omega

end EncodedChunk

/-- What a checked read found: a header, the stored checksum of the chunk and a payload, and the
checksum is theirs. -/
theorem crc_of_readChunkPayload {file : Bytes} {c : EncodedChunk} {header payload found : Bytes}
    (hheader : header.length = 12)
    (hbuf : slice file c.offset c.length =
      header ++ (crcBytes (c.header ++ c.column.payload) ++ payload))
    (h : readChunkPayload file c.toMeta = .ok found) :
    crc32c (header ++ payload) = crc32c (c.header ++ c.column.payload) := by
  have hcrcLen := length_crcBytes (c.header ++ c.column.payload)
  have hmeta : slice file c.toMeta.offset c.toMeta.length =
      header ++ (crcBytes (c.header ++ c.column.payload) ++ payload) := hbuf
  have hstored : slice (header ++ (crcBytes (c.header ++ c.column.payload) ++ payload)) 12 4 =
      crcBytes (c.header ++ c.column.payload) := Extents.slice_of_eq _ _ rfl hheader hcrcLen
  have hdrop : (header ++ (crcBytes (c.header ++ c.column.payload) ++ payload)).drop
      chunkHeaderLen = payload := by
    rw [← List.append_assoc]
    exact List.drop_left' (by rw [List.length_append, hheader, hcrcLen]; rfl)
  rw [readChunkPayload, hmeta] at h
  dsimp only at h
  rw [hstored, hdrop, List.take_left' hheader, leNat_crcBytes] at h
  split_ifs at h with _ _ _ _ _ _ hcrc
  exact BitVec.eq_of_toNat_eq (not_not.1 hcrc)

/-- **A chunk is read from its place.** -/
theorem readChunkPayload_frame {file : Bytes} {c : EncodedChunk}
    (hbuf : slice file c.offset c.length = c.frame) (hstop : c.offset + c.length ≤ file.length)
    (hfits : c.Fits) (hpayload : c.column.payload.length < 2 ^ 32) :
    readChunkPayload file c.toMeta = .ok c.column.payload := by
  have hcount := hfits.valueCount
  have hmeta : slice file c.toMeta.offset c.toMeta.length = c.frame := hbuf
  have hcrcLen := length_crcBytes (c.header ++ c.column.payload)
  have hlen : slice c.frame 0 4 = leBytes 4 c.column.payload.length := by
    refine Extents.slice_of_eq [] (leBytes 4 c.valueCount ++ (leBytes 1 c.column.codec.asByte ++
      [0, 0, 0]) ++ (crcBytes (c.header ++ c.column.payload) ++ c.column.payload)) ?_ rfl
      (length_leBytes 4 _)
    rw [EncodedChunk.frame, EncodedChunk.header, List.nil_append, List.append_assoc]
  have hvalues : slice c.frame 4 4 = leBytes 4 c.valueCount := by
    refine Extents.slice_of_eq (leBytes 4 c.column.payload.length)
      (leBytes 1 c.column.codec.asByte ++ ([0, 0, 0] ++
        (crcBytes (c.header ++ c.column.payload) ++ c.column.payload))) ?_ (length_leBytes 4 _)
      (length_leBytes 4 _)
    simp only [EncodedChunk.frame, EncodedChunk.header, List.append_assoc]
  have hcodec : slice c.frame 8 1 = leBytes 1 c.column.codec.asByte := by
    refine Extents.slice_of_eq (leBytes 4 c.column.payload.length ++ leBytes 4 c.valueCount)
      ([0, 0, 0] ++ (crcBytes (c.header ++ c.column.payload) ++ c.column.payload)) ?_
      (by rw [List.length_append, length_leBytes, length_leBytes]) (length_leBytes 1 _)
    simp only [EncodedChunk.frame, EncodedChunk.header, List.append_assoc]
  have hcrc : slice c.frame 12 4 = crcBytes (c.header ++ c.column.payload) :=
    Extents.slice_of_eq _ _ rfl c.length_header hcrcLen
  have hdrop : c.frame.drop chunkHeaderLen = c.column.payload := by
    rw [EncodedChunk.frame, ← List.append_assoc]
    exact List.drop_left' (by rw [List.length_append, c.length_header, hcrcLen]; rfl)
  have htake : c.frame.take 12 = c.header := List.take_left' c.length_header
  have hnum {n v : ℕ} (hv : v < 256 ^ n) : leNat (leBytes n v) = v := by
    rw [leNat_leBytes_mod, Nat.mod_eq_of_lt hv]
  have hshort : ¬ c.toMeta.length < chunkHeaderLen := by
    show ¬ chunkHeaderLen + c.column.payload.length < chunkHeaderLen
    omega
  have hlong : ¬ 2 ^ 64 ≤ c.toMeta.offset + c.toMeta.length := not_le.2 hfits.stop
  have hinside : ¬ file.length < c.toMeta.offset + c.toMeta.length := not_lt.2 hstop
  rw [readChunkPayload, hmeta, if_neg hshort, if_neg hlong, if_neg hinside]
  dsimp only
  rw [hlen, hvalues, hcodec, hcrc, hdrop, htake, hnum c.column.codec.asByte_lt,
    hnum hfits.valueCount, hnum hpayload, Codec.fromByte_asByte, leNat_crcBytes,
    if_neg (not_not.2 rfl)]
  simp only [EncodedChunk.toMeta, EncodedChunk.length, ne_eq, not_true_eq_false, if_false]

end SteleDb
