import SteleDb.Storage.SegmentSealed

/-!
# Damage to a sealed segment

A few neighbouring bits of a file change.  Within the bytes that one checksum covers, that is found:
in the footer the file does not open, in a chunk the reads of that chunk fail, and no other read
changes.

* `crc32c_ne_of_burst` : a burst of up to 32 bits changes the checksum;
* `SegmentFileWriter.damage_detected` : what becomes of the file of a segment.
-/

namespace SteleDb

open Extents (slice)

/-! ### Bursts -/

/-- Byte strings of one length that differ, and only within 32 bits. -/
structure Burst (bytes bytes' : Bytes) : Prop where
  length : bytes.length = bytes'.length
  ne : bytes ≠ bytes'
  window : ∃ j, ∀ i, i < j ∨ j + 32 ≤ i → (messageBits bytes)[i]? = (messageBits bytes')[i]?

theorem length_messageBits (bytes : Bytes) : (messageBits bytes).length = 8 * bytes.length := by
  induction bytes with
  | nil => rfl
  | cons b bytes ih =>
    have hcons : messageBits (b :: bytes) = (List.range 8).map b.val.testBit ++ messageBits bytes :=
      List.flatMap_cons
    rw [hcons, List.length_append, ih, List.length_map, List.length_range, List.length_cons]
    omega

/-- The bits of a byte stand together. -/
theorem getElem?_messageBits (bytes : Bytes) (i : ℕ) :
    (messageBits bytes)[i]? = bytes[i / 8]?.map fun b => b.val.testBit (i % 8) := by
  induction bytes generalizing i with
  | nil => rfl
  | cons b bytes ih =>
    have hcons : messageBits (b :: bytes) = (List.range 8).map b.val.testBit ++ messageBits bytes :=
      List.flatMap_cons
    have hlen : ((List.range 8).map b.val.testBit).length = 8 := by
      rw [List.length_map, List.length_range]
    by_cases hi : i < 8
    · rw [hcons, List.getElem?_append_left (by omega), Nat.div_eq_of_lt hi, Nat.mod_eq_of_lt hi,
        List.getElem?_map, List.getElem?_range hi]
      rfl
    · obtain ⟨k, rfl⟩ : ∃ k, i = k + 8 := ⟨i - 8, by omega⟩
      rw [hcons, List.getElem?_append_right (by omega), hlen, Nat.add_sub_cancel, ih,
        Nat.add_div_right k (by decide), Nat.add_mod_right, List.getElem?_cons_succ]

/-- Bytes are their bits. -/
theorem messageBits_injective {bytes bytes' : Bytes} (h : messageBits bytes = messageBits bytes') :
    bytes = bytes' := by
  refine List.ext_getElem? fun k => ?_
  have hbit (i : ℕ) (hi : i < 8) : (bytes[k]?.map fun b => b.val.testBit i) =
      bytes'[k]?.map fun b => b.val.testBit i := by
    have hat := congrArg (·[8 * k + i]?) h
    simp only [getElem?_messageBits] at hat
    rwa [Nat.mul_add_div (by decide), Nat.div_eq_of_lt hi, Nat.add_zero, Nat.mul_add_mod,
      Nat.mod_eq_of_lt hi] at hat
  cases hb : bytes[k]? with
  | none =>
    have hzero := hbit 0 (by decide)
    rw [hb] at hzero
    exact (Option.map_eq_none_iff.1 hzero.symm).symm
  | some b =>
    cases hb' : bytes'[k]? with
    | none =>
      have hzero := hbit 0 (by decide)
      rw [hb, hb'] at hzero
      cases hzero
    | some b' =>
      rw [hb, hb'] at hbit
      refine congrArg some (Fin.ext (Nat.eq_of_testBit_eq fun i => ?_))
      by_cases hi : i < 8
      · exact Option.some.inj (hbit i hi)
      · rw [testBit_byte b (not_lt.1 hi), testBit_byte b' (not_lt.1 hi)]

/-- **A burst changes the checksum**, wherever it stands. -/
theorem crc32c_ne_of_burst {bytes bytes' : Bytes} (h : Burst bytes bytes') :
    crc32c bytes ≠ crc32c bytes' := by
  obtain ⟨j, hj⟩ := h.window
  have hpoly : crcPolyReflected.msb = true := by decide
  have hlen : (messageBits bytes).length = (messageBits bytes').length := by
    rw [length_messageBits, length_messageBits, h.length]
  have hne := Crc.foldl_feed_ne_of_burst hpoly hlen (fun heq => h.ne (messageBits_injective heq)) hj
    (~~~ 0)
  rw [← foldl_crcByte_eq_feed, ← foldl_crcByte_eq_feed] at hne
  rw [crc32c_eq_reference, crc32c_eq_reference, crc32cReference, crc32cReference]
  intro heq
  exact hne (BitVec.not_inj.1 heq)

/-- A byte that changes is a burst. -/
theorem burst_of_byte {bytes : Bytes} {k : ℕ} {b b' : Fin 256} (hb : bytes[k]? = some b)
    (hne : b' ≠ b) : Burst bytes (bytes.set k b') := by
  have hk : k < bytes.length := (List.getElem?_eq_some_iff.1 hb).1
  refine ⟨(List.length_set).symm, fun heq => ?_, 8 * k, fun i hi => ?_⟩
  · have hat := congrArg (·[k]?) heq
    simp only [hb, List.getElem?_set_self hk, Option.some.injEq] at hat
    exact hne hat.symm
  · rw [getElem?_messageBits, getElem?_messageBits, List.getElem?_set_ne (by omega)]

/-! ### Damage -/

/-- The bytes that the checksum of a chunk covers. -/
def coveredBytes (file : Bytes) (m : ChunkMeta) : Bytes :=
  slice file m.offset 12 ++
    slice file (m.offset + chunkHeaderLen) (m.length - chunkHeaderLen)

/-- `file'` is `file` with a burst in what the checksum of a chunk covers. -/
structure DamagedChunk (file file' : Bytes) (m : ChunkMeta) : Prop where
  length : file.length = file'.length
  elsewhere : ∀ i, i < m.offset ∨ m.offset + m.length ≤ i → file[i]? = file'[i]?
  checksum : slice file (m.offset + 12) 4 = slice file' (m.offset + 12) 4
  burst : Burst (coveredBytes file m) (coveredBytes file' m)

/-- Where the footer starts, by the trailer. -/
def footerStart (file : Bytes) : ℕ :=
  file.length - trailerLen - leNat (slice file (file.length - trailerLen + 4) 4)

/-- `file'` is `file` with a burst in the footer. -/
structure DamagedFooter (file file' : Bytes) : Prop where
  length : file.length = file'.length
  elsewhere : ∀ i, i < footerStart file ∨ file.length - trailerLen ≤ i → file[i]? = file'[i]?
  burst : Burst (slice file (footerStart file) (file.length - trailerLen - footerStart file))
    (slice file' (footerStart file) (file.length - trailerLen - footerStart file))

/-- All chunks of a footer. -/
def FileFooter.chunks (f : FileFooter) : List ChunkMeta :=
  f.rowGroups.flatMap FileRowGroup.columns ++ f.retractions

/-! ### Reads of columns -/

section Reads

variable {α : Type} {decode : Codec → Bytes → ℕ → Except SegmentError (List α)} {file file' : Bytes}
  {col : ColumnId} {rgs : List FileRowGroup}

/-- A column with a chunk that is not read is not read. -/
theorem gatherCells_error {rg : FileRowGroup} {m : ChunkMeta} {e : SegmentError} (hrg : rg ∈ rgs)
    (hm : chunkMeta rg col = .ok m) (h : readChunkPayload file m = .error e) :
    ∃ e', gatherCells decode file col rgs = .error e' := by
  rw [gatherCells]
  cases hall : rgs.mapM fun rg => do
      let m ← chunkMeta rg col
      readCells decode file m with
  | error e' => exact ⟨e', rfl⟩
  | ok cells =>
    obtain ⟨found, hfound⟩ := (mapM_eq_ok.1 hall).1 rg hrg
    rw [hm] at hfound
    change readCells decode file m = .ok found at hfound
    obtain ⟨payload, hpayload, -⟩ := exists_of_bind_ok hfound
    rw [h] at hpayload
    cases hpayload

/-- A column is read from its chunks alone. -/
theorem gatherCells_congr (h : ∀ rg ∈ rgs, ∀ m, chunkMeta rg col = .ok m →
    readChunkPayload file' m = readChunkPayload file m) :
    gatherCells decode file' col rgs = gatherCells decode file col rgs := by
  rw [gatherCells, gatherCells]
  congr 1
  induction rgs with
  | nil => rfl
  | cons rg rgs ih =>
    have hfirst : (chunkMeta rg col >>= fun m => readCells decode file' m) =
        (chunkMeta rg col >>= fun m => readCells decode file m) := by
      cases hm : chunkMeta rg col with
      | error e => rfl
      | ok m =>
        change readCells decode file' m = readCells decode file m
        rw [readCells, readCells, h rg List.mem_cons_self m hm]
    rw [List.mapM_cons, List.mapM_cons, hfirst,
      ih fun rg hrg m hm => h rg (List.mem_cons_of_mem _ hrg) m hm]

theorem readColumnFrom_error {rg : FileRowGroup} {m : ChunkMeta} {e : SegmentError} (hrg : rg ∈ rgs)
    (hm : chunkMeta rg col = .ok m) (h : readChunkPayload file m = .error e) :
    ∃ e', readColumnFrom file col rgs = .error e' := by
  have hmap {α β : Type} {x : Except SegmentError α} (f : α → β) (hx : ∃ e', x = .error e') :
      ∃ e', f <$> x = .error e' := by
    obtain ⟨e', rfl⟩ := hx
    exact ⟨e', rfl⟩
  rw [readColumnFrom]
  by_cases hcol : col = .payload
  · rw [if_pos hcol]
    exact hmap _ (gatherCells_error hrg hm h)
  · rw [if_neg hcol]
    cases col.ty with
    | bytes => exact hmap _ (gatherCells_error hrg hm h)
    | i64 => exact hmap _ (gatherCells_error hrg hm h)

theorem readColumnFrom_congr (h : ∀ rg ∈ rgs, ∀ m, chunkMeta rg col = .ok m →
    readChunkPayload file' m = readChunkPayload file m) :
    readColumnFrom file' col rgs = readColumnFrom file col rgs := by
  rw [readColumnFrom, readColumnFrom, gatherCells_congr h, gatherCells_congr h, gatherCells_congr h]

end Reads

namespace SegmentFile

variable {file file' : Bytes} {f : FileFooter}

/-- Rows are read from the columns alone. -/
theorem readVersions_congr
    (h : ∀ col, readColumnFrom file' col f.rowGroups = readColumnFrom file col f.rowGroups) :
    (mk file' f).readVersions = (mk file f).readVersions := by
  simp only [readVersions, readBytesColumn, readNullableBytesColumn, readI64Column, readColumn,
    framedPayloads, hasColumn, h]
  rfl

/-- Rows that are read have all their columns read. -/
theorem readColumn_of_readVersions {vs : List Version} (h : (mk file f).readVersions = .ok vs)
    {validTime : Bool} {col : ColumnId} (hcol : col ∈ ColumnId.schema validTime)
    (hhas : (mk file f).hasColumn col = true) :
    ∃ data, readColumnFrom file col f.rowGroups = .ok data := by
  have hbytes {col : ColumnId} {cells : List Bytes}
      (h : (mk file f).readBytesColumn col = .ok cells) :
      ∃ data, readColumnFrom file col f.rowGroups = .ok data := by
    obtain ⟨data, hdata, -⟩ := exists_of_bind_ok h
    exact ⟨data, hdata⟩
  have hints {col : ColumnId} {cells : List ℤ} (h : (mk file f).readI64Column col = .ok cells) :
      ∃ data, readColumnFrom file col f.rowGroups = .ok data := by
    obtain ⟨data, hdata, -⟩ := exists_of_bind_ok h
    exact ⟨data, hdata⟩
  obtain ⟨keys, hkeys, h⟩ := exists_of_bind_ok h
  obtain ⟨payloads, hpayloads, h⟩ := exists_of_bind_ok h
  obtain ⟨principals, hprincipals, h⟩ := exists_of_bind_ok h
  obtain ⟨sysFrom, hsysFrom, h⟩ := exists_of_bind_ok h
  obtain ⟨seqs, hseqs, h⟩ := exists_of_bind_ok h
  obtain ⟨txnIds, htxnIds, h⟩ := exists_of_bind_ok h
  obtain ⟨committedAts, hcommittedAts, h⟩ := exists_of_bind_ok h
  split_ifs at h
  obtain ⟨framed, hframed, -⟩ := exists_of_bind_ok h
  obtain ⟨data, hdata, -⟩ := exists_of_bind_ok hpayloads
  -- the columns of the interval are read if one of them is there
  have hvalid : col = .validFrom ∨ col = .validTo →
      ∃ data, readColumnFrom file col f.rowGroups = .ok data := by
    intro hpair
    rw [framedPayloads] at hframed
    by_cases hboth : (mk file f).hasColumn .validFrom ≠ (mk file f).hasColumn .validTo
    · rw [if_pos hboth] at hframed
      cases hframed
    rw [if_neg hboth] at hframed
    have hfrom : (mk file f).hasColumn .validFrom = true := by
      rcases hpair with rfl | rfl
      · exact hhas
      · exact (not_not.1 hboth).trans hhas
    rw [if_pos hfrom] at hframed
    obtain ⟨validFrom, hvalidFrom, hframed⟩ := exists_of_bind_ok hframed
    obtain ⟨validTo, hvalidTo, -⟩ := exists_of_bind_ok hframed
    rcases hpair with rfl | rfl
    · exact hints hvalidFrom
    · exact hints hvalidTo
  have hcases : col ∈ ColumnId.schema true := by
    revert hcol
    cases validTime with
    | false => cases col <;> decide
    | true => exact id
  simp only [ColumnId.schema, if_true, List.cons_append, List.nil_append, List.mem_cons,
    List.not_mem_nil, or_false] at hcases
  rcases hcases with rfl | rfl | rfl | rfl | rfl | rfl | rfl | rfl | rfl
  · exact hbytes hkeys
  · exact hints hsysFrom
  · exact hints hseqs
  · exact ⟨data, hdata⟩
  · exact hints htxnIds
  · exact hints hcommittedAts
  · exact hbytes hprincipals
  · exact hvalid (.inl rfl)
  · exact hvalid (.inr rfl)

/-- Tombstones are read from their chunks alone. -/
theorem readRetractions_congr
    (h : ∀ m ∈ f.retractions, readChunkPayload file' m = readChunkPayload file m) :
    (mk file' f).readRetractions = (mk file f).readRetractions := by
  have hcells {α : Type} (decode : Codec → Bytes → ℕ → Except SegmentError (List α))
      (col : ColumnId) :
      (mk file' f).readRetractionCells decode col = (mk file f).readRetractionCells decode col := by
    rw [readRetractionCells, readRetractionCells]
    dsimp only
    cases hfind : f.retractions.find? fun m => m.columnId = col with
    | none => rfl
    | some m =>
      change readCells decode file' m = readCells decode file m
      rw [readCells, readCells, h m (List.mem_of_find?_eq_some hfind)]
  simp only [readRetractions, readRetractionBytes, readRetractionI64, hcells]

/-- Tombstones that are read have all their columns read. -/
theorem readChunkPayload_of_readRetractions {cs : List Close}
    (h : (mk file f).readRetractions = .ok cs) (hsome : f.retractions ≠ []) {col : ColumnId}
    (hcol : col ∈ ColumnId.retraction) {m : ChunkMeta}
    (hm : f.retractions.find? (fun m => m.columnId = col) = some m) :
    ∃ payload, readChunkPayload file m = .ok payload := by
  have hcells {α : Type} {decode : Codec → Bytes → ℕ → Except SegmentError (List α)}
      {cells : List α} (h : (mk file f).readRetractionCells decode col = .ok cells) :
      ∃ payload, readChunkPayload file m = .ok payload := by
    rw [readRetractionCells, hm] at h
    obtain ⟨payload, hpayload, -⟩ := exists_of_bind_ok h
    exact ⟨payload, hpayload⟩
  rw [readRetractions, if_neg hsome] at h
  obtain ⟨keys, hkeys, h⟩ := exists_of_bind_ok h
  obtain ⟨principals, hprincipals, h⟩ := exists_of_bind_ok h
  obtain ⟨sysFrom, hsysFrom, h⟩ := exists_of_bind_ok h
  obtain ⟨seqs, hseqs, h⟩ := exists_of_bind_ok h
  obtain ⟨closedAt, hclosedAt, h⟩ := exists_of_bind_ok h
  obtain ⟨txnIds, htxnIds, h⟩ := exists_of_bind_ok h
  obtain ⟨committedAts, hcommittedAts, h⟩ := exists_of_bind_ok h
  simp only [ColumnId.retraction, List.mem_cons, List.not_mem_nil, or_false] at hcol
  rcases hcol with rfl | rfl | rfl | rfl | rfl | rfl | rfl
  · exact hcells hkeys
  · exact hcells hsysFrom
  · exact hcells hseqs
  · exact hcells hclosedAt
  · exact hcells htxnIds
  · exact hcells hcommittedAts
  · exact hcells hprincipals

end SegmentFile

/-- A byte of a chunk's header that changes damages the chunk. -/
theorem damagedChunk_set {file : Bytes} {m : ChunkMeta} {k : ℕ} {b b' : Fin 256}
    (hk : m.offset ≤ k) (hk' : k < m.offset + 12) (hlen : 12 ≤ m.length) (hb : file[k]? = some b)
    (hne : b' ≠ b) : DamagedChunk file (file.set k b') m := by
  have hset {start n : ℕ} (h : k < start ∨ start + n ≤ k) :
      slice file start n = slice (file.set k b') start n :=
    Extents.slice_congr fun i hi hi' => (List.getElem?_set_ne (by omega)).symm
  have hcovered : coveredBytes (file.set k b') m = (coveredBytes file m).set (k - m.offset) b' := by
    have hrest : slice file (m.offset + chunkHeaderLen) (m.length - chunkHeaderLen) =
        slice (file.set k b') (m.offset + chunkHeaderLen) (m.length - chunkHeaderLen) :=
      hset (.inl (by rw [chunkHeaderLen]; omega))
    have hheader : slice (file.set k b') m.offset 12 =
        (slice file m.offset 12).set (k - m.offset) b' := by
      rw [slice, slice, List.drop_set, if_neg (by omega), List.take_set]
    have hlenHeader : k - m.offset < (slice file m.offset 12).length := by
      have hin : k < file.length := (List.getElem?_eq_some_iff.1 hb).1
      rw [slice, List.length_take, List.length_drop]
      omega
    rw [coveredBytes, ← hrest, hheader, coveredBytes, List.set_append_left _ _ hlenHeader]
  have hat : (coveredBytes file m)[k - m.offset]? = some b := by
    have hsub : k - m.offset < 12 := by omega
    have hheader : (slice file m.offset 12)[k - m.offset]? = file[m.offset + (k - m.offset)]? :=
      Extents.getElem?_slice file hsub
    rw [Nat.add_sub_cancel' hk, hb] at hheader
    have hlt := (List.getElem?_eq_some_iff.1 hheader).1
    rw [coveredBytes, List.getElem?_append_left hlt, hheader]
  refine ⟨List.length_set.symm, fun i hi => (List.getElem?_set_ne (by omega)).symm,
    hset (.inl (by omega)), ?_⟩
  rw [hcovered]
  exact burst_of_byte hat hne

/-! ### The file -/

theorem readChunkPayload_congr {file file' : Bytes} {m : ChunkMeta}
    (hlen : file.length = file'.length)
    (h : slice file m.offset m.length = slice file' m.offset m.length) :
    readChunkPayload file' m = readChunkPayload file m := by
  rw [readChunkPayload, readChunkPayload, hlen, h]

namespace SealedFile

variable {w : SegmentFileWriter} {s : SealedFile w} {file' : Bytes} {c : EncodedChunk}

theorem chunks_fileFooter (s : SealedFile w) :
    s.fileFooter.chunks = s.chunks.map EncodedChunk.toMeta := by
  rw [FileFooter.chunks, fileFooter, chunks, List.map_append, List.flatMap_map, List.map_flatMap]
  rfl

/-- A chunk starts behind those before it. -/
theorem pairwise_chunks (s : SealedFile w) :
    s.chunks.Pairwise fun c c' => c.offset + c.length ≤ c'.offset := by
  have hpairs := Extents.pairwise_offsets segmentHeaderLen (s.chunks.map EncodedChunk.frame)
  have hplaced : s.chunks.map EncodedChunk.offset =
      Extents.offsets segmentHeaderLen (s.chunks.map EncodedChunk.frame) := s.placed
  rw [← hplaced, List.zip_map', List.pairwise_map] at hpairs
  refine hpairs.imp fun {c c'} h => ?_
  rwa [c.length_frame] at h

/-- Chunks do not overlap. -/
theorem apart {c' : EncodedChunk} (hc : c ∈ s.chunks) (hc' : c' ∈ s.chunks) (hne : c' ≠ c) :
    c'.offset + c'.length ≤ c.offset ∨ c.offset + c.length ≤ c'.offset := by
  have hsymm : Std.Symm fun c c' : EncodedChunk =>
      c.offset + c.length ≤ c'.offset ∨ c'.offset + c'.length ≤ c.offset :=
    ⟨fun _ _ h => h.symm⟩
  have hall : s.chunks.Pairwise fun c c' : EncodedChunk =>
      c.offset + c.length ≤ c'.offset ∨ c'.offset + c'.length ≤ c.offset :=
    s.pairwise_chunks.imp Or.inl
  exact hall.forall hc' hc hne

/-- The checksum covers the header and the payload. -/
theorem coveredBytes_eq (hc : c ∈ s.chunks) :
    coveredBytes s.bytes c.toMeta = c.header ++ c.column.payload := by
  have hframe : slice s.bytes c.offset c.length = c.frame := (stands hc).1
  have hheader : slice s.bytes c.offset 12 = c.header := by
    have hin : slice (slice s.bytes c.offset c.length) 0 12 = slice s.bytes (c.offset + 0) 12 :=
      Extents.slice_slice _ (by rw [EncodedChunk.length, chunkHeaderLen]; omega)
    rw [hframe, Nat.add_zero] at hin
    rw [← hin]
    exact Extents.slice_of_eq [] _ rfl rfl c.length_header
  have hpayload : slice s.bytes (c.offset + chunkHeaderLen) c.column.payload.length =
      c.column.payload := by
    have hin : slice (slice s.bytes c.offset c.length) chunkHeaderLen c.column.payload.length =
        slice s.bytes (c.offset + chunkHeaderLen) c.column.payload.length :=
      Extents.slice_slice _ le_rfl
    rw [hframe] at hin
    rw [← hin]
    refine Extents.slice_of_eq (c.header ++ crcBytes (c.header ++ c.column.payload)) [] ?_ ?_ rfl
    · rw [EncodedChunk.frame, List.append_nil, List.append_assoc]
    · rw [List.length_append, c.length_header, length_crcBytes]
      rfl
  have hlen : c.toMeta.length - chunkHeaderLen = c.column.payload.length :=
    Nat.add_sub_cancel_left ..
  rw [coveredBytes, hlen]
  exact congrArg₂ _ hheader hpayload

/-- **A burst in a chunk**: the chunk is not read, and what else is in the file stays as it was. -/
theorem chunk_damaged (hc : c ∈ s.chunks) (h : DamagedChunk s.bytes file' c.toMeta) :
    (∃ area, file' = fileBytes area s.footer s.footer) ∧
      (∃ e, readChunkPayload file' c.toMeta = .error e) ∧
        ∀ c' ∈ s.chunks, c' ≠ c →
          readChunkPayload file' c'.toMeta = readChunkPayload s.bytes c'.toMeta := by
  obtain ⟨hstart, hstop, -⟩ := s.slice_chunk hc []
  refine ⟨?_, ?_, fun c' hc' hne => ?_⟩
  · have hsame : ∀ i, i < fileHeader.length ∨ fileHeader.length + s.area.length ≤ i →
        s.bytes[i]? = file'[i]? := by
      rw [length_fileHeader]
      refine fun i hi => h.elsewhere i ?_
      change i < c.offset ∨ c.offset + c.length ≤ i
      omega
    exact ⟨_, Extents.eq_replace rfl h.length hsame⟩
  · cases hread : readChunkPayload file' c.toMeta with
    | error e => exact ⟨e, rfl⟩
    | ok found =>
      -- the stored checksum is that of other bytes
      have hstand := (stands hc).2
      have hlen := h.length
      have hburst := crc32c_ne_of_burst h.burst
      rw [coveredBytes_eq hc] at hburst
      have hchecksum : slice file' (c.offset + 12) 4 = crcBytes (c.header ++ c.column.payload) := by
        have hin : slice (slice s.bytes c.offset c.length) 12 4 = slice s.bytes (c.offset + 12) 4 :=
          Extents.slice_slice _ (by rw [EncodedChunk.length, chunkHeaderLen]; omega)
        rw [(stands hc).1] at hin
        have hcrc : slice s.bytes (c.offset + 12) 4 = slice file' (c.offset + 12) 4 := h.checksum
        rw [← hcrc, ← hin]
        exact Extents.slice_of_eq _ _ rfl c.length_header (length_crcBytes _)
      have hheader : (slice file' c.offset 12).length = 12 := by
        refine Extents.length_slice ?_
        rw [EncodedChunk.length, chunkHeaderLen] at hstand
        omega
      have hbuf : slice file' c.offset c.length = slice file' c.offset 12 ++
          (crcBytes (c.header ++ c.column.payload) ++
            slice file' (c.offset + chunkHeaderLen) (c.toMeta.length - chunkHeaderLen)) := by
        have hsum : c.length = 12 + (4 + (c.toMeta.length - chunkHeaderLen)) := by
          change chunkHeaderLen + c.column.payload.length =
            12 + (4 + (chunkHeaderLen + c.column.payload.length - chunkHeaderLen))
          rw [Nat.add_sub_cancel_left, ← Nat.add_assoc]
          rfl
        rw [hsum, Extents.slice_add, Extents.slice_add, hchecksum, Nat.add_assoc c.offset]
        rfl
      exact absurd (crc_of_readChunkPayload hheader hbuf hread).symm hburst
  · refine readChunkPayload_congr h.length (Extents.slice_congr fun i hi hi' => ?_)
    have hapart := apart hc hc' hne
    refine h.elsewhere i ?_
    change c'.offset ≤ i at hi
    change i < c'.offset + c'.length at hi'
    change i < c.offset ∨ c.offset + c.length ≤ i
    omega

/-- **A burst in the footer**: the file does not open. -/
theorem footer_damaged (h : DamagedFooter s.bytes file') :
    ∃ e, SegmentFile.open file' = .error e := by
  have htotal := s.length_bytes
  have hstart : footerStart s.bytes = segmentHeaderLen + s.area.length := by
    have hlen : leNat (slice s.bytes (s.bytes.length - trailerLen + 4) 4) = s.footer.length :=
      footerLen_fileBytes s.area s.footer s.short
    rw [footerStart, hlen]
    omega
  have hstop : s.bytes.length - trailerLen =
      segmentHeaderLen + s.area.length + s.footer.length := by
    omega
  have hlen : s.bytes.length - trailerLen - footerStart s.bytes = s.footer.length := by omega
  have hbefore : (fileHeader ++ s.area).length = segmentHeaderLen + s.area.length := by
    rw [List.length_append, length_fileHeader]
  have hbytes : s.bytes = (fileHeader ++ s.area) ++ (s.footer ++ fileTrailer s.footer) := by
    rw [bytes, fileBytes, List.append_assoc]
  have hsame : ∀ i, i < (fileHeader ++ s.area).length ∨
      (fileHeader ++ s.area).length + s.footer.length ≤ i → s.bytes[i]? = file'[i]? := by
    rw [hbefore]
    refine fun i hi => h.elsewhere i ?_
    rw [hstart]
    omega
  have hreplaced := Extents.eq_replace hbytes h.length hsame
  have hburst := h.burst
  rw [hlen, hstart, ← hbefore] at hburst
  have hold : slice s.bytes (fileHeader ++ s.area).length s.footer.length = s.footer :=
    Extents.slice_of_eq _ _ hbytes rfl rfl
  rw [hold] at hburst
  obtain ⟨damaged, hdamaged⟩ : ∃ damaged,
      damaged = slice file' (fileHeader ++ s.area).length s.footer.length := ⟨_, rfl⟩
  rw [← hdamaged] at hburst hreplaced
  have hfile : file' = fileBytes s.area damaged s.footer := by
    rw [hreplaced, fileBytes, List.append_assoc]
  rw [hfile, SegmentFile.open, validateHeader_fileBytes,
    readFooter_fileBytes hburst.length.symm s.short, if_neg (crc32c_ne_of_burst hburst).symm]
  exact ⟨_, rfl⟩

/-- The chunk that a read of row groups finds. -/
theorem exists_of_chunkMeta {rg : FileRowGroup} (hrg : rg ∈ s.fileFooter.rowGroups) {col : ColumnId}
    {m : ChunkMeta} (hm : chunkMeta rg col = .ok m) :
    ∃ c ∈ s.chunks, c.toMeta = m ∧ c.col ∈ ColumnId.schema w.validTime := by
  obtain ⟨g, hg, rfl⟩ := List.mem_map.1 hrg
  obtain ⟨group, -, hgroup⟩ := exists_left_of_forall₂ s.groups hg
  rw [chunkMeta] at hm
  cases hfind : g.toMeta.columns.find? fun m => m.columnId = col with
  | none =>
    rw [hfind] at hm
    cases hm
  | some found =>
    rw [hfind] at hm
    cases hm
    obtain ⟨c, hc, hmeta⟩ := List.mem_map.1 (List.mem_of_find?_eq_some hfind)
    refine ⟨c, s.mem_chunks_of_group hg hc, hmeta, ?_⟩
    rw [← hgroup.cols]
    exact List.mem_map_of_mem hc

theorem col_of_retraction (hc : c ∈ s.retractions) : c.col ∈ ColumnId.retraction := by
  have hcol : c.col ∈ if w.retractions = [] then [] else ColumnId.retraction := by
    rw [← s.tombstones.cols]
    exact List.mem_map_of_mem hc
  split_ifs at hcol
  · cases hcol
  · exact hcol

theorem not_schema_of_retraction {col : ColumnId} (h : col ∈ ColumnId.retraction)
    (validTime : Bool) :
    col ∉ ColumnId.schema validTime := by
  revert h
  cases validTime <;> cases col <;> decide

/-- Rows with a damaged chunk are not read. -/
theorem readVersions_damaged {g : RowGroupChunks} (hg : g ∈ s.rowGroups) (hc : c ∈ g.chunks)
    {e : SegmentError} (h : readChunkPayload file' c.toMeta = .error e) :
    ∃ e', (SegmentFile.mk file' s.fileFooter).readVersions = .error e' := by
  obtain ⟨group, -, hgroup⟩ := exists_left_of_forall₂ s.groups hg
  have hcol : c.col ∈ ColumnId.schema w.validTime := by
    rw [← hgroup.cols]
    exact List.mem_map_of_mem hc
  have hfind : chunkMeta g.toMeta c.col = .ok c.toMeta := by
    rw [chunkMeta, RowGroupChunks.toMeta,
      find?_toMeta (hgroup.cols.symm ▸ nodup_schema w.validTime) hc]
  obtain ⟨e', he'⟩ : ∃ e', readColumnFrom file' c.col s.fileFooter.rowGroups = .error e' :=
    readColumnFrom_error (List.mem_map_of_mem hg) hfind h
  have hhas : (SegmentFile.mk file' s.fileFooter).hasColumn c.col = true := by
    rw [hasColumn_eq, decide_eq_true hcol]
    exact List.any_eq_true.2 ⟨g, hg, rfl⟩
  cases hread : (SegmentFile.mk file' s.fileFooter).readVersions with
  | error e'' => exact ⟨e'', rfl⟩
  | ok vs =>
    obtain ⟨data, hdata⟩ := SegmentFile.readColumn_of_readVersions hread hcol hhas
    rw [he'] at hdata
    cases hdata

/-- Tombstones with a damaged chunk are not read. -/
theorem readRetractions_damaged (hc : c ∈ s.retractions) {e : SegmentError}
    (h : readChunkPayload file' c.toMeta = .error e) :
    ∃ e', (SegmentFile.mk file' s.fileFooter).readRetractions = .error e' := by
  have hcol := col_of_retraction hc
  have hnodup : (s.retractions.map EncodedChunk.col).Nodup := by
    rw [s.tombstones.cols]
    split_ifs
    · exact List.nodup_nil
    · exact nodup_retraction
  have hsome : s.fileFooter.retractions ≠ [] := by
    intro hnil
    rw [List.map_eq_nil_iff.1 hnil] at hc
    cases hc
  cases hread : (SegmentFile.mk file' s.fileFooter).readRetractions with
  | error e' => exact ⟨e', rfl⟩
  | ok cs =>
    obtain ⟨payload, hpayload⟩ := SegmentFile.readChunkPayload_of_readRetractions hread hsome hcol
      (find?_toMeta hnodup hc)
    rw [h] at hpayload
    cases hpayload

end SealedFile

namespace SegmentFileWriter

/-- **Damage is detected, and stays where it is.**  A burst of up to 32 bits in the footer of a
sealed segment keeps the file from opening.  One in what the checksum of a chunk covers leaves the
footer as it was: the reads of row groups that include the chunk fail, and all others give what they
gave; if the chunk is of the tombstones, these are not read and the rows are, and the other way
around. -/
theorem damage_detected (w : SegmentFileWriter) {file file' : Bytes}
    (h : w.finish = .ok (some file)) (hfile : file.length < 2 ^ 64) :
    ∃ r, SegmentFile.open file = .ok r ∧
      (DamagedFooter file file' → ∃ e, SegmentFile.open file' = .error e) ∧
      ∀ m ∈ r.footer.chunks, DamagedChunk file file' m →
        SegmentFile.open file' = .ok ⟨file', r.footer⟩ ∧
        (∀ col rgs, (∀ rg ∈ rgs, rg ∈ r.footer.rowGroups) →
          ((∃ rg ∈ rgs, chunkMeta rg col = .ok m) →
            ∃ e, readColumnFrom file' col rgs = .error e) ∧
          ((¬∃ rg ∈ rgs, chunkMeta rg col = .ok m) →
            readColumnFrom file' col rgs = readColumnFrom file col rgs)) ∧
        (m ∈ r.footer.retractions →
          (∃ e, (SegmentFile.mk file' r.footer).readRetractions = .error e) ∧
            (SegmentFile.mk file' r.footer).readVersions = r.readVersions) ∧
        (m ∉ r.footer.retractions →
          (∃ e, (SegmentFile.mk file' r.footer).readVersions = .error e) ∧
            (SegmentFile.mk file' r.footer).readRetractions = r.readRetractions) := by
  obtain ⟨s, rfl⟩ := finish_eq_ok h
  refine ⟨⟨s.bytes, s.fileFooter⟩, SealedFile.open_eq hfile s.area, SealedFile.footer_damaged,
    fun m hm hdamaged => ?_⟩
  rw [SealedFile.chunks_fileFooter] at hm
  obtain ⟨c, hc, rfl⟩ := List.mem_map.1 hm
  obtain ⟨⟨area, harea⟩, ⟨e, he⟩, hothers⟩ := SealedFile.chunk_damaged hc hdamaged
  have hopen : SegmentFile.open file' = .ok ⟨file', s.fileFooter⟩ := by
    rw [harea]
    exact SealedFile.open_eq hfile area
  -- a read of row groups that does not find the chunk finds others
  have hsame : ∀ col rgs, (∀ rg ∈ rgs, rg ∈ s.fileFooter.rowGroups) →
      (¬∃ rg ∈ rgs, chunkMeta rg col = .ok c.toMeta) →
        readColumnFrom file' col rgs = readColumnFrom s.bytes col rgs := by
    intro col rgs hrgs hno
    refine readColumnFrom_congr fun rg hrg m hm => ?_
    obtain ⟨c', hc', rfl, -⟩ := SealedFile.exists_of_chunkMeta (hrgs rg hrg) hm
    refine hothers c' hc' fun heq => hno ⟨rg, hrg, ?_⟩
    rw [← heq, hm]
  refine ⟨hopen, fun col rgs hrgs => ⟨?_, hsame col rgs hrgs⟩, fun hin => ?_, fun hout => ?_⟩
  · rintro ⟨rg, hrg, hmeta⟩
    exact readColumnFrom_error hrg hmeta he
  · obtain ⟨c', hc', hmeta⟩ := List.mem_map.1 hin
    have hcol : c.col ∈ ColumnId.retraction := by
      have heq : c'.col = c.col := congrArg (fun m : ChunkMeta => m.columnId) hmeta
      exact heq ▸ SealedFile.col_of_retraction hc'
    rw [← hmeta] at he
    refine ⟨SealedFile.readRetractions_damaged hc' he, SegmentFile.readVersions_congr fun col => ?_⟩
    refine hsame col _ (fun _ hrg => hrg) ?_
    rintro ⟨rg, hrg, hfound⟩
    obtain ⟨c'', -, hmeta', hschema⟩ := SealedFile.exists_of_chunkMeta hrg hfound
    have heq : c''.col = c.col := congrArg (fun m : ChunkMeta => m.columnId) hmeta'
    exact SealedFile.not_schema_of_retraction hcol w.validTime (heq ▸ hschema)
  · have hnot : c ∉ s.retractions := fun hc => hout (List.mem_map_of_mem hc)
    obtain ⟨g, hg, hcg⟩ := List.mem_flatMap.1 ((List.mem_append.1 hc).resolve_right hnot)
    refine ⟨SealedFile.readVersions_damaged hg hcg he,
      SegmentFile.readRetractions_congr fun m hm => ?_⟩
    obtain ⟨c', hc', rfl⟩ := List.mem_map.1 hm
    exact hothers c' (s.mem_chunks_of_tombstones hc') fun heq => hnot (heq ▸ hc')

/-- A byte changes in the file of `threeRows`. -/
theorem damage_detected_threeRows : ∃ file r m file',
    (({ validTime := true } : SegmentWriter).withMaxRowGroupRows 2).pushAll threeRows.rows
      threeRows.retractions = .ok threeRows.toSegmentWriter ∧
    threeRows.finish = .ok (some file) ∧
    SegmentFile.open file = .ok r ∧ m ∈ r.footer.chunks ∧ DamagedChunk file file' m ∧
      SegmentFile.open file' = .ok ⟨file', r.footer⟩ ∧
        ((∃ e, (SegmentFile.mk file' r.footer).readRetractions = .error e) ∨
          ∃ e, (SegmentFile.mk file' r.footer).readVersions = .error e) := by
  obtain ⟨file, hfinish, hfile⟩ := finish_threeRows
  obtain ⟨s, rfl⟩ := finish_eq_ok hfinish
  -- the first byte of some chunk
  obtain ⟨c, hc⟩ : ∃ c, c ∈ s.chunks := by
    obtain ⟨group, hgroup⟩ := List.exists_mem_of_ne_nil threeRows.groups (by decide)
    obtain ⟨g, hg, hencoded⟩ : ∃ g ∈ s.rowGroups, EncodedGroup threeRows group g :=
      exists_left_of_forall₂ s.groups.flip hgroup
    have hcol : ColumnId.payload ∈ g.chunks.map EncodedChunk.col := by
      rw [hencoded.cols]
      decide
    obtain ⟨c, hc, -⟩ := List.mem_map.1 hcol
    exact ⟨c, s.mem_chunks_of_group hg hc⟩
  have hlen : 12 ≤ c.toMeta.length := by
    change 12 ≤ chunkHeaderLen + c.column.payload.length
    rw [chunkHeaderLen]
    omega
  have hin : c.offset < s.bytes.length := by
    have hstop : c.offset + c.toMeta.length ≤ s.bytes.length := (SealedFile.stands hc).2
    omega
  obtain ⟨b', hne⟩ := exists_ne (s.bytes.get ⟨c.offset, hin⟩)
  have hdamaged : DamagedChunk s.bytes (s.bytes.set c.offset b') c.toMeta :=
    damagedChunk_set le_rfl (Nat.lt_add_of_pos_right (by decide)) hlen
      (List.getElem?_eq_getElem hin) hne
  obtain ⟨r, hopen, -, hall⟩ := damage_detected threeRows hfinish hfile
  have hr : r = ⟨s.bytes, s.fileFooter⟩ :=
    Except.ok.inj (hopen.symm.trans (SealedFile.open_eq hfile s.area))
  have hm : c.toMeta ∈ r.footer.chunks := by
    rw [hr, SealedFile.chunks_fileFooter]
    exact List.mem_map_of_mem hc
  obtain ⟨hopen', -, hin', hout⟩ := hall _ hm hdamaged
  refine ⟨s.bytes, r, c.toMeta, _, pushed_threeRows, hfinish, hopen, hm, hdamaged, hopen', ?_⟩
  by_cases hwhere : c.toMeta ∈ r.footer.retractions
  · exact .inl (hin' hwhere).1
  · exact .inr (hout hwhere).1

end SegmentFileWriter

end SteleDb
