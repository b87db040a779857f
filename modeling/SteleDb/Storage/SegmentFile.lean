import SteleDb.Lib.Extents
import SteleDb.Storage.BloomCodec
import SteleDb.Storage.Crc32c
import SteleDb.Storage.SegmentChunk
import SteleDb.Storage.ValidSummary
import SteleDb.Storage.VersionHistory

/-!
# The file of a sealed segment

A header, the column chunks of the row groups and of the tombstones one after another, a footer that
says where each chunk stands and what it holds, and a trailer that finds the footer.  A chunk and
the footer carry a checksum of their own.

* `SegmentFileWriter.finish` : the writer;
* `SegmentFile.open`, `SegmentFile.readVersions`, `SegmentFile.readRetractions` : the reader.

`SteleDb.Storage.SegmentRoundTrip` has what the reader makes of what the writer wrote.
-/

namespace SteleDb

open Extents (slice)
open SegmentCursor

/-! ### Layout -/

/-- `STLSEG` and two zeros. -/
def headerMagic : Bytes := [83, 84, 76, 83, 69, 71, 0, 0]

/-- `STLSEGFT`. -/
def trailerMagic : Bytes := [83, 84, 76, 83, 69, 71, 70, 84]

/-- The generation of the format. -/
def formatVersion : ℕ := 14

/-- The length of the header. -/
def segmentHeaderLen : ℕ := 16

/-- The length of the trailer. -/
def trailerLen : ℕ := 16

/-- The length of a chunk's header. -/
def chunkHeaderLen : ℕ := 16

/-- The only schema. -/
def schemaIdImplicitVersion : ℕ := 0

/-- The column of a number in the file. -/
def ColumnId.fromU16 : ℕ → Option ColumnId
  | 0 => some .businessKey
  | 1 => some .sysFrom
  | 2 => some .payload
  | 3 => some .txnId
  | 4 => some .committedAt
  | 5 => some .principal
  | 6 => some .validFrom
  | 7 => some .validTo
  | 8 => some .retractKey
  | 9 => some .retractSysFrom
  | 10 => some .retractClosedAt
  | 11 => some .retractClosedByTxn
  | 12 => some .retractClosedByCommittedAt
  | 13 => some .retractClosedByPrincipal
  | 14 => some .seq
  | 15 => some .retractSeq
  | _ => none

@[simp] theorem ColumnId.fromU16_toU16 (col : ColumnId) : fromU16 col.toU16 = some col := by
  cases col <;> rfl

theorem ColumnId.toU16_lt (col : ColumnId) : col.toU16 < 256 ^ 2 := by cases col <;> decide

/-- The bits of an `i64` as a `u64`. -/
def i64AsU64 (x : ℤ) : ℕ := (x % 2 ^ 64).toNat

theorem i64AsU64_u64AsI64 {n : ℕ} (h : n < 2 ^ 64) : i64AsU64 (u64AsI64 n) = n := by
  unfold i64AsU64 u64AsI64
  split_ifs <;> omega

/-! ### The writer -/

/-- A column of a row group or of the tombstones, encoded. -/
structure EncodedColumn where
  /-- The codec that the writer chose. -/
  codec : Codec
  /-- The cells. -/
  payload : Bytes
  /-- The statistics. -/
  stats : StatBound × StatBound

namespace EncodedColumn

/-- A column of bytes. -/
def ofBytes (values : List (Option Bytes)) (useDict : Bool) :
    Except SegmentError EncodedColumn := do
  let stats ← encodeBytesValues values
  let (codec, payload) := encodeBytesPayload values useDict
  pure ⟨codec, payload, stats⟩

/-- A column of `i64`s. -/
def ofI64 (values : List ℤ) : EncodedColumn :=
  ⟨.plain, encodeI64Payload values, encodeI64Values values⟩

/-- A column of a row group; `pairs` are the intervals of its rows. -/
def ofColumn (col : ColumnId) (rows : List Version) (pairs : Option (List (ℤ × ℤ)))
    (useDict : Bool) : Except SegmentError EncodedColumn :=
  match col.ty with
  | .bytes => do
    let values ← rows.mapM fun row => extractBytes col row pairs.isSome
    ofBytes values useDict
  | .i64 => .ok <| ofI64 <|
    match col with
    | .validFrom => (pairs.getD []).map Prod.fst
    | .validTo => (pairs.getD []).map Prod.snd
    | _ => rows.map (extractI64 col)

/-- A column of the tombstones. -/
def ofRetractionColumn (col : ColumnId) (closes : List Close) (useDict : Bool) :
    Except SegmentError EncodedColumn :=
  match col with
  | .retractKey => ofBytes (closes.map fun c => some c.businessKey) useDict
  | .retractClosedByPrincipal => ofBytes (closes.map fun c => some c.closedBy.principal) useDict
  | .retractSysFrom => .ok (ofI64 (closes.map Close.sysFrom))
  | .retractSeq => .ok (ofI64 (closes.map fun c => u64AsI64 c.seq))
  | .retractClosedAt => .ok (ofI64 (closes.map Close.sysTo))
  | .retractClosedByTxn => .ok (ofI64 (closes.map fun c => u64AsI64 c.closedBy.txnId))
  | .retractClosedByCommittedAt => .ok (ofI64 (closes.map fun c => c.closedBy.committedAt))
  | _ => .ok (ofI64 []) -- not such a column

end EncodedColumn

/-- A column chunk and its place in the file. -/
structure EncodedChunk where
  /-- The column. -/
  col : ColumnId
  /-- Where the chunk starts. -/
  offset : ℕ
  /-- The number of cells. -/
  valueCount : ℕ
  /-- The cells. -/
  column : EncodedColumn

namespace EncodedChunk

/-- The length of the chunk, header included. -/
def length (c : EncodedChunk) : ℕ := chunkHeaderLen + c.column.payload.length

/-- The part of the header that the checksum covers. -/
def header (c : EncodedChunk) : Bytes :=
  leBytes 4 c.column.payload.length ++ (leBytes 4 c.valueCount ++
    (leBytes 1 c.column.codec.asByte ++ [0, 0, 0]))

/-- The bytes of the chunk. -/
def frame (c : EncodedChunk) : Bytes :=
  c.header ++ (crcBytes (c.header ++ c.column.payload) ++ c.column.payload)

/-- The flags of open ends. -/
def statFlags (c : EncodedChunk) : ℕ :=
  (if c.column.stats.1 = .unbounded then 1 else 0) |||
    if c.column.stats.2 = .unbounded then 2 else 0

/-- The entry of the chunk in the footer. -/
def entry (c : EncodedChunk) : Bytes :=
  leBytes 2 c.col.toU16 ++ (leBytes 1 c.column.codec.asByte ++ (leBytes 1 c.statFlags ++
    (leBytes 8 c.offset ++ (leBytes 8 c.length ++ (leBytes 4 c.valueCount ++
      (leBytes 4 0 ++ (leBytes 4 c.column.stats.1.bytes.length ++ (c.column.stats.1.bytes ++
        (leBytes 4 c.column.stats.2.bytes.length ++ c.column.stats.2.bytes)))))))))

/-- Write the entry of a chunk. -/
def encodeMeta (c : EncodedChunk) : Except SegmentError Bytes :=
  if 2 ^ 32 ≤ c.column.stats.1.bytes.length then
    .error (.tooLarge "stat min length exceeds u32::MAX")
  else if 2 ^ 32 ≤ c.column.stats.2.bytes.length then
    .error (.tooLarge "stat max length exceeds u32::MAX")
  else .ok c.entry

end EncodedChunk

/-- Lay columns one after another from `offset` on. -/
def placeChunks (valueCount : ℕ) : ℕ → List (ColumnId × EncodedColumn) → List EncodedChunk
  | _, [] => []
  | offset, (col, column) :: rest =>
    let chunk : EncodedChunk := ⟨col, offset, valueCount, column⟩
    chunk :: placeChunks valueCount (offset + chunk.length) rest

/-- Where the chunks end. -/
def chunksEnd (offset : ℕ) (chunks : List EncodedChunk) : ℕ :=
  offset + (chunks.map EncodedChunk.length).sum

/-- The chunks of a row group. -/
structure RowGroupChunks where
  /-- The number of rows. -/
  rowCount : ℕ
  /-- One chunk for each column of the schema. -/
  chunks : List EncodedChunk

/-- Write the entries of a row group. -/
def RowGroupChunks.encodeMeta (g : RowGroupChunks) : Except SegmentError Bytes :=
  if 2 ^ 32 ≤ g.chunks.length then .error (.tooLarge "column count exceeds u32::MAX")
  else do
    let entries ← g.chunks.mapM EncodedChunk.encodeMeta
    pure (leBytes 4 g.rowCount ++ (leBytes 4 g.chunks.length ++ entries.flatten))

/-- The flags of the sections that are there. -/
def footerFlags (bloom valid rowGroups : Bool) : ℕ :=
  (if bloom then 1 else 0) ||| (if valid then 2 else 0) ||| if rowGroups then 4 else 0

/-- Write the footer; none if the writer panics. -/
def encodeFooter (rowGroups : List RowGroupChunks) (retractions : List EncodedChunk)
    (bloom : Option BloomWords) (sections : ValidSections) : Except SegmentError (Option Bytes) :=
  if 2 ^ 32 ≤ rowGroups.length then .error (.tooLarge "row-group count exceeds u32::MAX")
  else do
    let groups ← rowGroups.mapM RowGroupChunks.encodeMeta
    let retractionCount := (retractions.head?.map EncodedChunk.valueCount).getD 0
    if 2 ^ 32 ≤ retractions.length then
      .error (.tooLarge "retraction column count exceeds u32::MAX")
    else do
      let tombstones ← retractions.mapM EncodedChunk.encodeMeta
      let flags := footerFlags bloom.isSome sections.validIntervals.isSome
        sections.rowGroupValidIntervals.isSome
      pure do
        let bloom ← encodeSection BloomWords.encode bloom
        let segment ← encodeSection ValidIntervalSummary.encode sections.validIntervals
        let perGroup ← encodeSection ValidIntervalSummary.encodePerRowGroup
          sections.rowGroupValidIntervals
        some (leBytes 4 schemaIdImplicitVersion ++ (leBytes 4 flags ++
          (leBytes 4 rowGroups.length ++ (groups.flatten ++ (leBytes 4 retractionCount ++
            (leBytes 4 retractions.length ++ (tombstones.flatten ++
              (bloom ++ (segment ++ perGroup)))))))))

/-- The header of the file. -/
def fileHeader : Bytes :=
  headerMagic ++ (leBytes 2 formatVersion ++ (leBytes 2 0 ++ leBytes 4 0))

/-- The trailer of the file. -/
def fileTrailer (footer : Bytes) : Bytes :=
  crcBytes footer ++ (leBytes 4 footer.length ++ trailerMagic)

/-- A segment being written, with what the writer was told about its encoding. -/
structure SegmentFileWriter extends SegmentWriter where
  /-- The size of the Bloom filter; without one if zero. -/
  bloomBitsPerKey : ℕ := defaultBitsPerKey
  /-- The most intervals of a summary; without one if zero. -/
  validIntervalCap : ℕ := defaultValidIntervalCap
  /-- Columns of bytes may be stored as dictionaries. -/
  dictionary : Bool := false

namespace SegmentFileWriter

/-- The chunks of a row group, from `offset` on. -/
def encodeGroup (w : SegmentFileWriter) (offset : ℕ) (group : List Version)
    (pairs : Option (List (ℤ × ℤ))) : Except SegmentError RowGroupChunks :=
  if 2 ^ 32 ≤ group.length then .error (.tooLarge "row count exceeds u32::MAX in one row-group")
  else do
    let columns ← (ColumnId.schema w.validTime).mapM fun col =>
      (fun column => (col, column)) <$> EncodedColumn.ofColumn col group pairs w.dictionary
    pure ⟨group.length, placeChunks group.length offset columns⟩

/-- The chunks of row groups, from `offset` on; `pairs` are the intervals of their rows. -/
def encodeGroups (w : SegmentFileWriter) : ℕ → List (List Version) → Option (List (ℤ × ℤ)) →
    Except SegmentError (List RowGroupChunks)
  | _, [], _ => .ok []
  | offset, group :: rest, pairs => do
    let g ← w.encodeGroup offset group (pairs.map (List.take group.length))
    let more ← w.encodeGroups (chunksEnd offset g.chunks) rest
      (pairs.map (List.drop group.length))
    pure (g :: more)

/-- The chunks of the tombstones, from `offset` on; without tombstones there are none. -/
def encodeRetractions (w : SegmentFileWriter) (offset : ℕ) :
    Except SegmentError (List EncodedChunk) :=
  if 2 ^ 32 ≤ w.retractions.length then .error (.tooLarge "retraction count exceeds u32::MAX")
  else if w.retractions = [] then .ok []
  else do
    let columns ← ColumnId.retraction.mapM fun col =>
      (fun column => (col, column)) <$>
        EncodedColumn.ofRetractionColumn col w.retractions w.dictionary
    pure (placeChunks w.retractions.length offset columns)

/-- The filter over the keys, if it is enabled and there are any. -/
def businessKeyBloom (w : SegmentFileWriter) : Option (Option BloomWords) :=
  if 0 < w.bloomBitsPerKey ∧ w.rows ≠ [] then
    (BloomWords.build w.bloomBitsPerKey (w.rows.map Version.businessKey)).map some
  else some none

/-- What stands behind the entries of the footer; none if the writer panics. -/
def footerSections (w : SegmentFileWriter) (pairs : Option (List (ℤ × ℤ))) :
    Option (Option BloomWords × ValidSections) := do
  let bloom ← w.businessKeyBloom
  let sections ← w.validSections w.validIntervalCap pairs
  some (bloom, sections)

/-- Seal the segment: the bytes of its file; none if the writer panics. -/
def finish (w : SegmentFileWriter) : Except SegmentError (Option Bytes) := do
  let pairs ← w.validPairs
  let rowGroups ← w.encodeGroups segmentHeaderLen w.groups pairs
  let versionChunks := rowGroups.flatMap RowGroupChunks.chunks
  let retractions ← w.encodeRetractions (chunksEnd segmentHeaderLen versionChunks)
  let chunks := versionChunks ++ retractions
  if ∃ c ∈ chunks, 2 ^ 32 ≤ c.column.payload.length then
    .error (.tooLarge "column-chunk payload exceeds u32::MAX bytes")
  else
    match w.footerSections pairs with
    | none => .ok none
    | some (bloom, sections) => do
      match ← encodeFooter rowGroups retractions bloom sections with
      | none => .ok none
      | some footer =>
        if 2 ^ 32 ≤ footer.length then .error (.tooLarge "footer exceeds u32::MAX bytes")
        else .ok (some (fileHeader ++ (chunks.flatMap EncodedChunk.frame ++
          (footer ++ fileTrailer footer))))

end SegmentFileWriter

/-! ### The reader -/

/-- Why a file is not opened. -/
inductive SegmentOpenError where
  /-- The file is damaged. -/
  | segment (e : SegmentError)
  /-- The file is of another generation. -/
  | unsupportedVersion (got expected : ℕ)
  deriving DecidableEq, Repr

/-- A column chunk in the footer. -/
structure ChunkMeta extends ColumnChunkMeta where
  /-- The codec. -/
  codec : Codec
  /-- Where the chunk starts. -/
  offset : ℕ
  /-- Its length, header included. -/
  length : ℕ
  /-- The number of its cells. -/
  valueCount : ℕ
  deriving DecidableEq, Repr

/-- A row group in the footer. -/
structure FileRowGroup where
  /-- The number of rows. -/
  rowCount : ℕ
  /-- The chunks. -/
  columns : List ChunkMeta
  deriving DecidableEq, Repr

/-- A footer that was read. -/
structure FileFooter where
  /-- The row groups. -/
  rowGroups : List FileRowGroup
  /-- The chunks of the tombstones. -/
  retractions : List ChunkMeta
  /-- The filter over the keys. -/
  bloom : Option BloomWords
  /-- The summaries of the valid axis. -/
  sections : ValidSections
  deriving DecidableEq

/-- Read the entry of a chunk.  `disagrees` reports a number of cells that is not the expected
one. -/
def parseChunkMeta (expected : ℕ) (disagrees : String) : SegmentCursor ChunkMeta := do
  let columnId ← uint 2
  let columnId ← Cursor.ofOption (.corrupt "unknown column id in footer")
    (ColumnId.fromU16 columnId)
  let codec ← uint 1
  let codec ← Cursor.ofOption (.corrupt "unknown codec in footer") (Codec.fromByte codec)
  let flags ← uint 1
  let offset ← uint 8
  let length ← uint 8
  let valueCount ← uint 4
  let _reserved ← uint 4
  let minLen ← uint 4
  let minBytes ← bytes minLen
  let maxLen ← uint 4
  let maxBytes ← bytes maxLen
  let statMin ← checked (decodeStat columnId minBytes (flags.testBit 0))
  let statMax ← checked (decodeStat columnId maxBytes (flags.testBit 1))
  if valueCount ≠ expected then Cursor.fail (.corrupt disagrees)
  else pure ⟨⟨columnId, statMin, statMax⟩, codec, offset, length, valueCount⟩

/-- Read a row group. -/
def parseRowGroup : SegmentCursor FileRowGroup := do
  let rowCount ← uint 4
  let columnCount ← uint 4
  let columns ← (parseChunkMeta rowCount
    "column value_count disagrees with row-group row_count").times columnCount
  pure ⟨rowCount, columns⟩

/-- Read a filter, and how many bytes it takes. -/
def decodeBloom (bytes : Bytes) : Except String (BloomWords × ℕ) :=
  (BloomWords.decode bytes).mapError fun _ => "malformed bloom"

/-- Read the sections that the flags announce. -/
def parseSections (flags rowGroupCount : ℕ) :
    SegmentCursor (Option BloomWords × ValidSections) := do
  let bloom ← ValidFooter.decodeSection decodeBloom "malformed segment bloom in footer"
    (flags.testBit 0)
  let segment ← ValidFooter.decodeSection ValidIntervalSummary.decode
    "malformed valid-interval summary in footer" (flags.testBit 1)
  let perGroup ← ValidFooter.decodeSection
    (fun bytes => ValidIntervalSummary.decodePerRowGroup bytes rowGroupCount)
    "malformed per-row-group valid-interval summaries in footer" (flags.testBit 2)
  pure (bloom, ⟨segment, perGroup⟩)

/-- Read a footer. -/
def footerCursor : SegmentCursor FileFooter := do
  let schemaId ← uint 4
  if schemaId ≠ 0 then Cursor.fail (.corrupt "unknown schema id in footer")
  else do
    let flags ← uint 4
    if 8 ≤ flags then Cursor.fail (.corrupt "unknown footer flag bits set")
    else do
      let rowGroupCount ← uint 4
      let rowGroups ← parseRowGroup.times rowGroupCount
      let retractionCount ← uint 4
      let retractionColumns ← uint 4
      let retractions ← (parseChunkMeta retractionCount
        "retraction column value_count disagrees with retraction_count").times retractionColumns
      if ¬ (retractionCount = 0 ↔ retractions = []) then
        Cursor.fail (.corrupt
          "retraction section inconsistent: row count and column presence disagree")
      else do
        let (bloom, sections) ← parseSections flags rowGroupCount
        pure ⟨rowGroups, retractions, bloom, sections⟩

/-- Read all of a footer. -/
def parseFooter (footer : Bytes) : Except SegmentError FileFooter :=
  readAll "trailing bytes in footer" footerCursor footer

/-- Check the header. -/
def validateHeader (file : Bytes) : Except SegmentOpenError Unit :=
  if file.length < segmentHeaderLen + trailerLen then
    .error (.segment (.corrupt "file shorter than minimum (header + trailer)"))
  else if slice file 0 8 ≠ headerMagic then .error (.segment (.corrupt "header magic mismatch"))
  else
    let version := leNat (slice file 8 2)
    if version ≠ formatVersion then .error (.unsupportedVersion version formatVersion)
    else .ok ()

/-- Find the footer, and read it. -/
def readFooter (file : Bytes) : Except SegmentError FileFooter :=
  if file.length < trailerLen then .error (.corrupt "file shorter than trailer")
  else
    let trailerOff := file.length - trailerLen
    let footerLen := leNat (slice file (trailerOff + 4) 4)
    if slice file (trailerOff + 8) 8 ≠ trailerMagic then .error (.corrupt "trailer magic mismatch")
    else if trailerOff < footerLen then .error (.corrupt "footer length exceeds file size")
    else
      let footerOff := trailerOff - footerLen
      if footerOff < segmentHeaderLen then .error (.corrupt "footer overlaps header")
      else
        let footer := slice file footerOff footerLen
        if (crc32c footer).toNat ≠ leNat (slice file trailerOff 4) then
          .error (.corrupt "footer CRC mismatch")
        else parseFooter footer

/-- The payload of a chunk, checked. -/
def readChunkPayload (file : Bytes) (m : ChunkMeta) : Except SegmentError Bytes :=
  if m.length < chunkHeaderLen then
    .error (.corrupt "chunk shorter than its own header — footer disagrees with file")
  else if 2 ^ 64 ≤ m.offset + m.length then
    .error (.corrupt "chunk offset + length overflows u64")
  else if file.length < m.offset + m.length then
    .error (.corrupt "chunk extends past end of file — footer disagrees with file")
  else
    let buf := slice file m.offset m.length
    if Codec.fromByte (leNat (slice buf 8 1)) ≠ some m.codec then
      .error (.corrupt "chunk codec disagrees with footer entry")
    else if leNat (slice buf 4 4) ≠ m.valueCount then
      .error (.corrupt "chunk value_count disagrees with footer entry")
    else if chunkHeaderLen + leNat (slice buf 0 4) ≠ m.length then
      .error (.corrupt "chunk length disagrees with declared payload")
    else if (crc32c (buf.take 12 ++ buf.drop chunkHeaderLen)).toNat ≠ leNat (slice buf 12 4) then
      .error (.corrupt "chunk CRC mismatch")
    else .ok (buf.drop chunkHeaderLen)

/-- The decoded cells of a column. -/
inductive ColumnData where
  | bytes (cells : List Bytes)
  | nullableBytes (cells : List (Option Bytes))
  | i64 (cells : List ℤ)
  deriving DecidableEq

/-- Find the chunk of a column in a row group. -/
def chunkMeta (rg : FileRowGroup) (col : ColumnId) : Except SegmentError ChunkMeta :=
  match rg.columns.find? fun m => m.columnId = col with
  | some m => .ok m
  | none => .error (.corrupt "column missing from row-group")

/-- The cells of a chunk. -/
def readCells {α : Type} (decode : Codec → Bytes → ℕ → Except SegmentError (List α))
    (file : Bytes) (m : ChunkMeta) : Except SegmentError (List α) := do
  let payload ← readChunkPayload file m
  decode m.codec payload m.valueCount

/-- The cells of a column in row groups, one group after another. -/
def gatherCells {α : Type} (decode : Codec → Bytes → ℕ → Except SegmentError (List α))
    (file : Bytes) (col : ColumnId) (rowGroups : List FileRowGroup) :
    Except SegmentError (List α) :=
  List.flatten <$> rowGroups.mapM fun rg => do
    let m ← chunkMeta rg col
    readCells decode file m

/-- Read a column of row groups. -/
def readColumnFrom (file : Bytes) (col : ColumnId) (rowGroups : List FileRowGroup) :
    Except SegmentError ColumnData :=
  if col = .payload then
    .nullableBytes <$> gatherCells appendNullableBytesCells file col rowGroups
  else
    match col.ty with
    | .bytes => .bytes <$> gatherCells appendPresentBytesCells file col rowGroups
    | .i64 => .i64 <$> gatherCells appendI64Cells file col rowGroups

/-- What a column of another layout is reported as. -/
def columnMismatch : SegmentError := .corrupt "column data type mismatched expected schema"

namespace ColumnData

/-- The cells of a column of bytes. -/
def asBytes : ColumnData → Except SegmentError (List Bytes)
  | bytes cells => .ok cells
  | _ => .error columnMismatch

/-- The cells of a column of bytes with `NULL`s. -/
def asNullableBytes : ColumnData → Except SegmentError (List (Option Bytes))
  | nullableBytes cells => .ok cells
  | _ => .error columnMismatch

/-- The cells of a column of `i64`s. -/
def asI64 : ColumnData → Except SegmentError (List ℤ)
  | i64 cells => .ok cells
  | _ => .error columnMismatch

end ColumnData

/-- A sealed segment, opened. -/
structure SegmentFile where
  /-- The bytes of the file. -/
  file : Bytes
  /-- The footer. -/
  footer : FileFooter

/-- Open a sealed segment. -/
def SegmentFile.open (file : Bytes) : Except SegmentOpenError SegmentFile := do
  validateHeader file
  let footer ← (readFooter file).mapError SegmentOpenError.segment
  pure ⟨file, footer⟩

namespace SegmentFile

/-- Read a column. -/
def readColumn (r : SegmentFile) (col : ColumnId) : Except SegmentError ColumnData :=
  readColumnFrom r.file col r.footer.rowGroups

/-- Read a column of bytes. -/
def readBytesColumn (r : SegmentFile) (col : ColumnId) : Except SegmentError (List Bytes) :=
  r.readColumn col >>= ColumnData.asBytes

/-- Read a column of bytes with `NULL`s. -/
def readNullableBytesColumn (r : SegmentFile) (col : ColumnId) :
    Except SegmentError (List (Option Bytes)) :=
  r.readColumn col >>= ColumnData.asNullableBytes

/-- Read a column of `i64`s. -/
def readI64Column (r : SegmentFile) (col : ColumnId) : Except SegmentError (List ℤ) :=
  r.readColumn col >>= ColumnData.asI64

/-- Some row group has the column. -/
def hasColumn (r : SegmentFile) (col : ColumnId) : Bool :=
  r.footer.rowGroups.any fun rg => rg.columns.any fun m => m.columnId = col

/-- Payloads behind the intervals of their rows; `NULL` stays. -/
def reframe (validFrom validTo : List ℤ) (payloads : List (Option Bytes)) : List (Option Bytes) :=
  (validFrom.zip (validTo.zip payloads)).map fun cell =>
    cell.2.2.map (reframePayload cell.1 cell.2.1)

/-- The payloads of `n` rows as they were stored. -/
def framedPayloads (r : SegmentFile) (n : ℕ) (payloads : List (Option Bytes)) :
    Except SegmentError (List (Option Bytes)) :=
  if r.hasColumn .validFrom ≠ r.hasColumn .validTo then
    .error (.corrupt "valid-time columns must be present as a pair (valid_from with valid_to)")
  else if r.hasColumn .validFrom then do
    let validFrom ← r.readI64Column .validFrom
    let validTo ← r.readI64Column .validTo
    if validFrom.length ≠ n ∨ validTo.length ≠ n then
      .error (.corrupt "valid-time column value counts disagree within row-group")
    else pure (reframe validFrom validTo payloads)
  else pure payloads

/-- The versions of rows, from their cells. -/
def assembleVersions (keys : List Bytes) (sysFrom seqs txnIds committedAts : List ℤ)
    (principals : List Bytes) (payloads : List (Option Bytes)) : List Version :=
  (keys.zip (sysFrom.zip (seqs.zip (txnIds.zip (committedAts.zip
    (principals.zip payloads)))))).map
    fun (key, sysFrom, seq, txnId, committedAt, principal, payload) =>
      Version.mkOpen key sysFrom (Fin.ofNat (2 ^ 64) (i64AsU64 seq))
        ⟨i64AsU64 txnId, committedAt, principal⟩ payload

/-- Read all rows. -/
def readVersions (r : SegmentFile) : Except SegmentError (List Version) := do
  let keys ← r.readBytesColumn .businessKey
  let payloads ← r.readNullableBytesColumn .payload
  let principals ← r.readBytesColumn .principal
  let sysFrom ← r.readI64Column .sysFrom
  let seqs ← r.readI64Column .seq
  let txnIds ← r.readI64Column .txnId
  let committedAts ← r.readI64Column .committedAt
  if ¬ [payloads.length, principals.length, sysFrom.length, seqs.length, txnIds.length,
      committedAts.length].all (· = keys.length) then
    .error (.corrupt "per-column value counts disagree within row-group")
  else do
    let payloads ← r.framedPayloads keys.length payloads
    pure (assembleVersions keys sysFrom seqs txnIds committedAts principals payloads)

/-- Read the cells of a column of the tombstones. -/
def readRetractionCells {α : Type} (r : SegmentFile)
    (decode : Codec → Bytes → ℕ → Except SegmentError (List α)) (col : ColumnId) :
    Except SegmentError (List α) :=
  match r.footer.retractions.find? fun m => m.columnId = col with
  | some m => readCells decode r.file m
  | none => .error (.corrupt "retraction column missing from segment")

/-- Read a column of bytes of the tombstones. -/
def readRetractionBytes (r : SegmentFile) (col : ColumnId) : Except SegmentError (List Bytes) :=
  r.readRetractionCells appendPresentBytesCells col

/-- Read a column of `i64`s of the tombstones. -/
def readRetractionI64 (r : SegmentFile) (col : ColumnId) : Except SegmentError (List ℤ) :=
  r.readRetractionCells appendI64Cells col

/-- The tombstones, from their cells. -/
def assembleCloses (keys : List Bytes) (sysFrom seqs closedAt closedTxn closedCommitted : List ℤ)
    (principals : List Bytes) : List Close :=
  (keys.zip (sysFrom.zip (seqs.zip (closedAt.zip (closedTxn.zip
    (closedCommitted.zip principals)))))).map
    fun (key, sysFrom, seq, closedAt, txnId, committedAt, principal) =>
      ⟨key, sysFrom, Fin.ofNat (2 ^ 64) (i64AsU64 seq), closedAt,
        ⟨i64AsU64 txnId, committedAt, principal⟩⟩

/-- Read all tombstones. -/
def readRetractions (r : SegmentFile) : Except SegmentError (List Close) :=
  if r.footer.retractions = [] then .ok []
  else do
    let keys ← r.readRetractionBytes .retractKey
    let principals ← r.readRetractionBytes .retractClosedByPrincipal
    let sysFrom ← r.readRetractionI64 .retractSysFrom
    let seqs ← r.readRetractionI64 .retractSeq
    let closedAt ← r.readRetractionI64 .retractClosedAt
    let closedTxn ← r.readRetractionI64 .retractClosedByTxn
    let closedCommitted ← r.readRetractionI64 .retractClosedByCommittedAt
    if ¬ [principals.length, sysFrom.length, seqs.length, closedAt.length, closedTxn.length,
        closedCommitted.length].all (· = keys.length) then
      .error (.corrupt "per-column value counts disagree within retraction section")
    else pure (assembleCloses keys sysFrom seqs closedAt closedTxn closedCommitted principals)

end SegmentFile

end SteleDb
