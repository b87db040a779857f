import SteleDb.Lib.Chunks
import SteleDb.Storage.ColumnLayout
import SteleDb.Storage.RedoCodec
import SteleDb.Storage.SegmentStats

/-!
# The cells of a column chunk

A column of bytes is stored plainly, each value behind its length, or as a dictionary: the distinct
values once, in the order in which they first appear, and for each row the place of its value in a
code of one, two or four bytes.  The writer keeps the dictionary only if it is smaller.  A column of
`i64`s is stored plainly.

* `reads_dictColumn` : a dictionary column is read back;
* `chunk_codec` : the payload that the writer chose is never larger than the plain one, and the
  reader finds the values in it, unless it is a dictionary that stands for too many bytes;
* `expandedSize_of_decodeDictBytesChunk` : no payload makes the reader expand past its limit.
-/

namespace SteleDb

/-! ### The writer -/

/-- The payload of a column of `i64`s. -/
def encodeI64Payload (values : List ℤ) : Bytes := values.flatMap i64ToLeBytes

/-! ### The reader -/

/-- A reader of a footer or a chunk. -/
abbrev SegmentCursor := Cursor (Fin 256) SegmentError

namespace SegmentCursor

/-- What a field past the end is reported as. -/
def shortRead : SegmentError := .corrupt "short read parsing footer/chunk"

/-- The next `n` bytes. -/
def bytes (n : ℕ) : SegmentCursor Bytes := Cursor.take shortRead n

/-- A number of `n` bytes. -/
def uint (n : ℕ) : SegmentCursor ℕ := do
  let raw ← bytes n
  pure (leNat raw)

theorem reads_bytes (l : Bytes) : Cursor.Reads (bytes l.length) l l := Cursor.Reads.take _ l

theorem reads_uint {n v : ℕ} (h : v < 256 ^ n) : Cursor.Reads (uint n) (leBytes n v) v := by
  have htake : Cursor.Reads (bytes n) (leBytes n v) (leBytes n v) := by
    simpa using reads_bytes (leBytes n v)
  have hval : leNat (leBytes n v) = v := by
    rw [leNat_leBytes_mod, Nat.mod_eq_of_lt h]
  have hread := htake.map leNat
  rwa [hval] at hread

/-- What takes nothing. -/
def checked {α : Type} : Except SegmentError α → SegmentCursor α
  | .ok a => pure a
  | .error e => Cursor.fail e

theorem reads_checked {α : Type} {x : Except SegmentError α} {a : α} (h : x = .ok a) :
    Cursor.Reads (checked x) [] a := by
  subst h
  exact Cursor.Reads.pure a

/-- Read all of a payload. -/
def readAll {α : Type} (trailing : String) (p : SegmentCursor α) (payload : Bytes) :
    Except SegmentError α :=
  match p payload with
  | .error e => .error e
  | .ok (a, rest) => if rest = [] then .ok a else .error (.corrupt trailing)

theorem readAll_of_reads {α : Type} {p : SegmentCursor α} {payload : Bytes} {a : α}
    (h : Cursor.Reads p payload a) (trailing : String) : readAll trailing p payload = .ok a := by
  have hp := h []
  rw [List.append_nil] at hp
  rw [readAll, hp]
  exact if_pos rfl

theorem readAll_eq_ok {α : Type} {p : SegmentCursor α} {payload : Bytes} {a : α}
    {trailing : String} (h : readAll trailing p payload = .ok a) : p payload = .ok (a, []) := by
  rw [readAll] at h
  split at h
  · cases h
  · split_ifs at h with hrest
    cases h
    rename_i heq
    rw [heq, hrest]

end SegmentCursor

open SegmentCursor

/-- A value behind its length. -/
def presentCell : SegmentCursor Bytes := do
  let len ← uint 4
  bytes len

/-- A value behind its length, or `NULL`. -/
def nullableCell : SegmentCursor (Option Bytes) := do
  let len ← uint 4
  if len = bytesNullSentinel then pure none
  else do
    let value ← bytes len
    pure (some value)

/-- Read a plain column without `NULL`s. -/
def decodeBytesChunk (payload : Bytes) (valueCount : ℕ) : Except SegmentError (List Bytes) :=
  readAll "trailing bytes in bytes column" (presentCell.times valueCount) payload

/-- Read a plain column. -/
def decodeNullableBytesChunk (payload : Bytes) (valueCount : ℕ) :
    Except SegmentError (List (Option Bytes)) :=
  readAll "trailing bytes in bytes column" (nullableCell.times valueCount) payload

/-- An entry of a dictionary. -/
def dictEntry : SegmentCursor (Option Bytes) := do
  let len ← uint 4
  if len = bytesNullSentinel then pure none
  else if Version.maxVersionFrameLen < len then
    Cursor.fail (.tooLarge "dictionary entry exceeds frame limit")
  else do
    let value ← bytes len
    pure (some value)

/-- What the cells expand to, with one more; `NULL` takes no bytes. -/
def expandBy (expanded : ℕ) (entry : Option Bytes) : ℕ :=
  entry.elim expanded fun value => saturatingAdd expanded value.length

/-- The cells of codes. -/
def dictCells (dict : List (Option Bytes)) (width : ℕ) :
    ℕ → ℕ → SegmentCursor (List (Option Bytes))
  | 0, _ => pure []
  | n + 1, expanded => do
    let code ← uint width
    let entry ← Cursor.ofOption (.corrupt "dictionary code out of range") dict[code]?
    if entry.isSome ∧ maxDecodedChunkLen < expandBy expanded entry then
      Cursor.fail (.tooLarge "dictionary column expands past the decode limit")
    else do
      let rest ← dictCells dict width n (expandBy expanded entry)
      pure (entry :: rest)

/-- A dictionary and its codes. -/
def dictColumn (valueCount : ℕ) : SegmentCursor (List (Option Bytes)) := do
  let width ← uint 1
  if width ∉ [1, 2, 4] then Cursor.fail (.corrupt "invalid dictionary code width")
  else do
    let dictCount ← uint 4
    if width < codeWidthFor dictCount then
      Cursor.fail (.corrupt "dictionary code width too narrow for dictionary size")
    else do
      let dict ← dictEntry.times dictCount
      dictCells dict width valueCount 0

/-- Read a dictionary column. -/
def decodeDictBytesChunk (payload : Bytes) (valueCount : ℕ) :
    Except SegmentError (List (Option Bytes)) :=
  readAll "trailing bytes in dictionary column" (dictColumn valueCount) payload

/-- Read a column of `i64`s. -/
def decodeI64Chunk (payload : Bytes) (valueCount : ℕ) : Except SegmentError (List ℤ) :=
  if payload.length ≠ valueCount * 8 then
    .error (.corrupt "i64 column payload length is not value_count * 8")
  else .ok ((Chunks.exactChunks 8 payload).map i64OfLeBytes)

/-- The cells of a chunk that may have `NULL`s. -/
def appendNullableBytesCells (codec : Codec) (payload : Bytes) (valueCount : ℕ) :
    Except SegmentError (List (Option Bytes)) :=
  match codec with
  | .plain => decodeNullableBytesChunk payload valueCount
  | .dict => decodeDictBytesChunk payload valueCount

/-- The value of a cell that may not be `NULL`. -/
def presentValue : Option Bytes → Except SegmentError Bytes
  | some value => .ok value
  | none => .error (.corrupt "NULL cell in a non-nullable dictionary column")

/-- The cells of a chunk without `NULL`s. -/
def appendPresentBytesCells (codec : Codec) (payload : Bytes) (valueCount : ℕ) :
    Except SegmentError (List Bytes) :=
  match codec with
  | .plain => decodeBytesChunk payload valueCount
  | .dict => do
    let cells ← decodeDictBytesChunk payload valueCount
    cells.mapM presentValue

/-- The cells of a chunk of `i64`s. -/
def appendI64Cells (codec : Codec) (payload : Bytes) (valueCount : ℕ) :
    Except SegmentError (List ℤ) :=
  match codec with
  | .plain => decodeI64Chunk payload valueCount
  | .dict => .error (.corrupt "dictionary codec on an i64 column")

/-! ### Plain columns -/

/-- Values below the ceiling of a frame. -/
def FitFrames (values : List (Option Bytes)) : Prop :=
  ∀ b, some b ∈ values → b.length ≤ Version.maxVersionFrameLen

theorem lt_sentinel {n : ℕ} (h : n ≤ Version.maxVersionFrameLen) : n < bytesNullSentinel :=
  h.trans_lt (by decide)

theorem length_encodeBytesCell (v : Option Bytes) :
    (encodeBytesCell v).length = 4 + (v.map List.length).getD 0 := by
  cases v with
  | none => exact length_leBytes 4 _
  | some b => rw [encodeBytesCell, List.length_append, length_leBytes]; rfl

theorem length_encodePlainBytes (values : List (Option Bytes)) :
    (encodePlainBytes values).length = plainSize values := by
  rw [encodePlainBytes, plainSize, List.length_flatMap]
  simp only [length_encodeBytesCell]

theorem reads_nullableCell {v : Option Bytes}
    (h : ∀ b, v = some b → b.length ≤ Version.maxVersionFrameLen) :
    Cursor.Reads nullableCell (encodeBytesCell v) v := by
  cases v with
  | none =>
    refine (reads_uint (show bytesNullSentinel < 256 ^ 4 by decide)).bindLast ?_
    rw [if_pos rfl]
    exact Cursor.Reads.pure none
  | some b =>
    have hlt := lt_sentinel (h b rfl)
    refine (reads_uint (hlt.trans (by decide))).bind ?_
    rw [if_neg hlt.ne]
    exact (reads_bytes b).map some

theorem reads_presentCell {b : Bytes} (h : b.length ≤ Version.maxVersionFrameLen) :
    Cursor.Reads presentCell (encodeBytesCell (some b)) b :=
  (reads_uint ((lt_sentinel h).trans (by decide))).bind (reads_bytes b)

theorem reads_dictEntry {v : Option Bytes}
    (h : ∀ b, v = some b → b.length ≤ Version.maxVersionFrameLen) :
    Cursor.Reads dictEntry (encodeBytesCell v) v := by
  cases v with
  | none =>
    refine (reads_uint (show bytesNullSentinel < 256 ^ 4 by decide)).bindLast ?_
    rw [if_pos rfl]
    exact Cursor.Reads.pure none
  | some b =>
    have hlt := lt_sentinel (h b rfl)
    refine (reads_uint (hlt.trans (by decide))).bind ?_
    rw [if_neg hlt.ne, if_neg (not_lt.2 (h b rfl))]
    exact (reads_bytes b).map some

/-! ### Dictionaries -/

/-- The codes so far stand for the rows so far. -/
structure DictBuild.Encodes (d : DictBuild) (seen : List (Option Bytes)) : Prop where
  codes : List.Forall₂ (fun code v => d.distinct[code]? = some v) d.codes seen
  length : d.distinct.length ≤ seen.length
  mem : ∀ v ∈ d.distinct, v ∈ seen

theorem DictBuild.Encodes.push {d : DictBuild} {seen : List (Option Bytes)} (h : d.Encodes seen)
    (value : Option Bytes) : (d.push value).Encodes (seen ++ [value]) := by
  have hlen := h.length
  rw [DictBuild.push]
  cases hidx : d.distinct.idxOf? value with
  | some code =>
    have hcode : d.distinct[code]? = some value := by
      obtain ⟨hlt, hval⟩ := List.findIdx?_eq_some_iff_getElem.1 hidx
      rw [List.getElem?_eq_getElem hlt, eq_of_beq hval.1]
    refine ⟨?_, by simp; omega, fun v hv => List.mem_append_left _ (h.mem v hv)⟩
    exact List.rel_append h.codes (.cons hcode .nil)
  | none =>
    -- the value is new: it goes behind the others, whose places stay
    refine ⟨List.rel_append (h.codes.imp fun code v hv => ?_) (.cons ?_ .nil), by simp; omega, ?_⟩
    · rw [List.getElem?_append_left (List.getElem?_eq_some_iff.1 hv).1]
      exact hv
    · rw [List.getElem?_append_right le_rfl, Nat.sub_self]
      rfl
    · intro v hv
      rcases List.mem_append.1 hv with hv | hv
      · exact List.mem_append_left _ (h.mem v hv)
      · exact List.mem_append_right _ hv

theorem DictBuild.Encodes.foldl {d : DictBuild} {seen : List (Option Bytes)} (h : d.Encodes seen)
    (values : List (Option Bytes)) : (values.foldl DictBuild.push d).Encodes (seen ++ values) := by
  induction values generalizing d seen with
  | nil => simpa using h
  | cons v values ih =>
    have hpush := ih (h.push v)
    rwa [List.append_assoc] at hpush

theorem encodes_build (values : List (Option Bytes)) :
    (values.foldl DictBuild.push {}).Encodes values :=
  DictBuild.Encodes.foldl ⟨.nil, le_rfl, fun _ hv => absurd hv List.not_mem_nil⟩ values

theorem codeWidthFor_mem (n : ℕ) : codeWidthFor n ∈ [1, 2, 4] := by
  unfold codeWidthFor
  split_ifs <;> simp

/-- A code of that width addresses the dictionary. -/
theorem le_pow_codeWidthFor {n : ℕ} (h : n < 2 ^ 32) : n ≤ 256 ^ codeWidthFor n := by
  unfold codeWidthFor
  split_ifs <;> omega

theorem pushCode_eq {width code : ℕ} (h : width ≤ 4) :
    pushCode width code = leBytes width code := by
  have htake : ∀ k n x, k ≤ n → (leBytes n x).take k = leBytes k x := by
    intro k
    induction k with
    | zero => exact fun n x _ => List.take_zero
    | succ k ih =>
      intro n x hk
      obtain ⟨m, rfl⟩ : ∃ m, n = m + 1 := ⟨n - 1, by omega⟩
      rw [leBytes, List.take_succ_cons, ih m _ (by omega), leBytes]
  exact htake width 4 code h

/-- The codes of values are read as the values, as long as they stay below the limit. -/
theorem reads_dictCells {dict : List (Option Bytes)} {width : ℕ} (hwidth : width ≤ 4)
    (hdict : dict.length ≤ 256 ^ width) {codes : List ℕ} {values : List (Option Bytes)}
    (hcodes : List.Forall₂ (fun code v => dict[code]? = some v) codes values) {expanded : ℕ}
    (hsize : expanded + expandedSize values ≤ maxDecodedChunkLen) :
    Cursor.Reads (dictCells dict width values.length expanded) (codes.flatMap (pushCode width))
      values := by
  induction hcodes generalizing expanded with
  | nil => exact Cursor.Reads.pure []
  | @cons code v codes values hcode _ ih =>
    have hmax : maxDecodedChunkLen < 2 ^ 64 - 1 := by decide
    have hlt : code < 256 ^ width := (List.getElem?_eq_some_iff.1 hcode).1.trans_le hdict
    have hexp : expandBy expanded v = expanded + (v.map List.length).getD 0 := by
      cases v with
      | none => rfl
      | some b =>
        simp only [expandedSize, List.map_cons, List.sum_cons, Option.map_some, Option.getD_some]
          at hsize ⊢
        rw [expandBy, Option.elim_some, saturatingAdd, Nat.min_eq_left (by omega)]
    have hrest : expandBy expanded v + expandedSize values ≤ maxDecodedChunkLen := by
      rw [hexp]
      simp only [expandedSize, List.map_cons, List.sum_cons] at hsize ⊢
      omega
    rw [List.length_cons, dictCells, List.flatMap_cons, pushCode_eq hwidth]
    refine (reads_uint hlt).bind ((Cursor.Reads.ofOption _ hcode).bind ?_)
    rw [if_neg fun hover => by omega]
    exact (ih hrest).map fun rest => v :: rest

/-- The dictionary that was written. -/
theorem buildDictPayload_eq_some {values : List (Option Bytes)} {payload : Bytes}
    (h : buildDictPayload values = some payload) : ∃ d : DictBuild, d.Encodes values ∧
      payload = leBytes 1 (codeWidthFor d.distinct.length) ++ (leBytes 4 d.distinct.length ++
        (d.distinct.flatMap encodeBytesCell ++
          d.codes.flatMap (pushCode (codeWidthFor d.distinct.length)))) := by
  rw [buildDictPayload] at h
  dsimp only at h
  split_ifs at h
  cases h
  exact ⟨_, encodes_build values, rfl⟩

/-- Its width is one of the three, and its entries are read back. -/
theorem DictBuild.Encodes.reads {d : DictBuild} {values : List (Option Bytes)}
    (h : d.Encodes values)
    (hfit : FitFrames values) : codeWidthFor d.distinct.length ≤ 4 ∧
      Cursor.Reads (dictEntry.times d.distinct.length) (d.distinct.flatMap encodeBytesCell)
        d.distinct := by
  refine ⟨?_, Cursor.Reads.timesMap fun v hv =>
    reads_dictEntry fun b hb => hfit b (h.mem _ (hb ▸ hv))⟩
  have hwidth := codeWidthFor_mem d.distinct.length
  simp only [List.mem_cons, List.not_mem_nil, or_false] at hwidth
  omega

/-- **A dictionary is read back.** -/
theorem reads_dictColumn {values : List (Option Bytes)} {payload : Bytes}
    (h : buildDictPayload values = some payload) (hcount : values.length < 2 ^ 32)
    (hfit : FitFrames values) (hsize : expandedSize values ≤ maxDecodedChunkLen) :
    Cursor.Reads (dictColumn values.length) payload values := by
  obtain ⟨d, hd, rfl⟩ := buildDictPayload_eq_some h
  obtain ⟨hle, hentries⟩ := hd.reads hfit
  have hlen := hd.length
  refine (reads_uint (by omega)).bind ?_
  rw [if_neg (not_not.2 (codeWidthFor_mem _))]
  refine (reads_uint (by omega)).bind ?_
  rw [if_neg (lt_irrefl _)]
  exact hentries.bind (reads_dictCells hle (le_pow_codeWidthFor (by omega)) hd.codes
    (by rwa [Nat.zero_add]))

/-! ### What the writer chose -/

variable {values : List (Option Bytes)} {useDict : Bool}

/-- The writer wrote the plain layout, or a dictionary that is smaller. -/
theorem encodeBytesPayload_cases (values : List (Option Bytes)) (useDict : Bool) :
    encodeBytesPayload values useDict = (.plain, encodePlainBytes values) ∨
      ∃ dict, useDict = true ∧ buildDictPayload values = some dict ∧
        dict.length < plainSize values ∧ encodeBytesPayload values useDict = (.dict, dict) := by
  rw [encodeBytesPayload]
  cases useDict with
  | false => exact .inl rfl
  | true =>
    cases hb : buildDictPayload values with
    | none => exact .inl rfl
    | some dict =>
      by_cases hlt : dict.length < plainSize values
      · exact .inr ⟨dict, rfl, rfl, hlt, if_pos hlt⟩
      · exact .inl (if_neg hlt)

theorem Expandable.of_dict (h : Expandable useDict values) {dict : Bytes}
    (hdict : encodeBytesPayload values useDict = (.dict, dict)) :
    expandedSize values ≤ maxDecodedChunkLen := by
  refine h.resolve_right fun hplain => ?_
  rw [hdict] at hplain
  cases hplain

theorem appendNullableBytesCells_encode (hcount : values.length < 2 ^ 32) (hfit : FitFrames values)
    (hsize : Expandable useDict values) :
    appendNullableBytesCells (encodeBytesPayload values useDict).1
      (encodeBytesPayload values useDict).2 values.length = .ok values := by
  rcases encodeBytesPayload_cases values useDict with h | ⟨dict, -, hbuild, -, h⟩
  · rw [h]
    exact readAll_of_reads (Cursor.Reads.timesMap fun v hv =>
      reads_nullableCell fun b hb => hfit b (hb ▸ hv)) _
  · rw [h]
    exact readAll_of_reads (reads_dictColumn hbuild hcount hfit (hsize.of_dict h)) _

theorem mapM_presentValue (cells : List Bytes) :
    (cells.map some).mapM presentValue = .ok cells := by
  have h : ∀ v ∈ cells.map some, presentValue v = .ok (v.getD []) := by
    intro v hv
    obtain ⟨b, -, rfl⟩ := List.mem_map.1 hv
    rfl
  rw [mapM_of_forall h, List.map_map]
  exact congrArg Except.ok (List.map_id' cells)

theorem appendPresentBytesCells_encode {cells : List Bytes} (hcount : cells.length < 2 ^ 32)
    (hfit : FitFrames (cells.map some)) (hsize : Expandable useDict (cells.map some)) :
    appendPresentBytesCells (encodeBytesPayload (cells.map some) useDict).1
      (encodeBytesPayload (cells.map some) useDict).2 cells.length = .ok cells := by
  rcases encodeBytesPayload_cases (cells.map some) useDict with h | ⟨dict, -, hbuild, -, h⟩
  · have hplain : encodePlainBytes (cells.map some) =
        cells.flatMap fun b => encodeBytesCell (some b) := by
      rw [encodePlainBytes, List.flatMap_map]
    rw [h]
    simp only [appendPresentBytesCells, hplain]
    exact readAll_of_reads (Cursor.Reads.timesMap fun b hb =>
      reads_presentCell (hfit b (List.mem_map_of_mem hb))) _
  · have hread : decodeDictBytesChunk dict cells.length = .ok (cells.map some) := by
      have hlen : (cells.map some).length = cells.length := List.length_map _
      rw [← hlen]
      exact readAll_of_reads
        (reads_dictColumn hbuild (by rwa [hlen]) hfit (hsize.of_dict h)) _
    rw [h]
    simp only [appendPresentBytesCells, hread]
    exact mapM_presentValue cells

theorem decodeI64Chunk_encode {cells : List ℤ} (hfit : ∀ x ∈ cells, FitsI64 x) :
    decodeI64Chunk (encodeI64Payload cells) cells.length = .ok cells := by
  have hread : (encodeI64Payload cells).length = cells.length * 8 ∧
      (Chunks.exactChunks 8 (encodeI64Payload cells)).map i64OfLeBytes = cells := by
    induction cells with
    | nil => exact ⟨rfl, rfl⟩
    | cons x cells ih =>
      obtain ⟨hlen, hcells⟩ := ih fun y hy => hfit y (List.mem_cons_of_mem _ hy)
      obtain ⟨hmin, hmax⟩ := hfit x List.mem_cons_self
      have hx : (i64ToLeBytes x).length = 8 := length_leBytes 8 _
      rw [encodeI64Payload, List.flatMap_cons, ← encodeI64Payload]
      refine ⟨?_, ?_⟩
      · rw [List.length_append, hlen, hx, List.length_cons]
        omega
      · rw [Chunks.exactChunks_chunk_append (by decide) hx, List.map_cons, hcells,
          i64OfLeBytes_i64ToLeBytes hmin hmax]
  rw [decodeI64Chunk, if_neg (not_not.2 hread.1), hread.2]

/-! ### Any payload -/

/-- The cells of any codes stay below the limit. -/
theorem expandedSize_of_dictCells {dict : List (Option Bytes)} {width n expanded : ℕ}
    {l rest : Bytes} {cells : List (Option Bytes)} (hle : expanded ≤ maxDecodedChunkLen)
    (h : dictCells dict width n expanded l = .ok (cells, rest)) :
    cells.length = n ∧ expanded + expandedSize cells ≤ maxDecodedChunkLen := by
  induction n generalizing expanded l cells with
  | zero =>
    cases h
    exact ⟨rfl, hle⟩
  | succ n ih =>
    obtain ⟨code, mid, -, h⟩ := Cursor.bind_eq_ok.1 h
    obtain ⟨entry, mid', -, h⟩ := Cursor.bind_eq_ok.1 h
    split_ifs at h with hover
    · cases h
    · obtain ⟨more, hmore, rfl⟩ := Cursor.bind_pure_eq_ok.1 h
      have hmax : maxDecodedChunkLen < 2 ^ 64 - 1 := by decide
      -- below the limit nothing saturates
      have hexp : expandBy expanded entry = expanded + (entry.map List.length).getD 0 ∧
          expandBy expanded entry ≤ maxDecodedChunkLen := by
        cases entry with
        | none => exact ⟨rfl, hle⟩
        | some b =>
          have hfew : saturatingAdd expanded b.length ≤ maxDecodedChunkLen := by
            simpa [expandBy] using hover
          unfold saturatingAdd at hfew
          refine ⟨?_, hfew⟩
          rw [expandBy, Option.elim_some, saturatingAdd, Option.map_some, Option.getD_some]
          omega
      obtain ⟨hlen, hsum⟩ := ih hexp.2 hmore
      refine ⟨by rw [List.length_cons, hlen], ?_⟩
      rw [hexp.1] at hsum
      simp only [expandedSize, List.map_cons, List.sum_cons] at hsum ⊢
      omega

/-- **No payload expands past the limit.** -/
theorem expandedSize_of_decodeDictBytesChunk {payload : Bytes} {valueCount : ℕ}
    {cells : List (Option Bytes)} (h : decodeDictBytesChunk payload valueCount = .ok cells) :
    cells.length = valueCount ∧ expandedSize cells ≤ maxDecodedChunkLen := by
  obtain ⟨width, l, -, h⟩ := Cursor.bind_eq_ok.1 (readAll_eq_ok h)
  split_ifs at h
  · obtain ⟨dictCount, l', -, h⟩ := Cursor.bind_eq_ok.1 h
    split_ifs at h
    · cases h
    · obtain ⟨dict, l'', -, h⟩ := Cursor.bind_eq_ok.1 h
      obtain ⟨hlen, hsum⟩ := expandedSize_of_dictCells (Nat.zero_le _) h
      exact ⟨hlen, by rwa [Nat.zero_add] at hsum⟩
  · cases h

/-- What the codes of values are read as, if they are: the values. -/
theorem eq_of_dictCells {dict : List (Option Bytes)} {width : ℕ} (hwidth : width ≤ 4)
    (hdict : dict.length ≤ 256 ^ width) {codes : List ℕ} {values : List (Option Bytes)}
    (hcodes : List.Forall₂ (fun code v => dict[code]? = some v) codes values) {expanded : ℕ}
    {rest rest' : Bytes} {cells : List (Option Bytes)}
    (h : dictCells dict width values.length expanded (codes.flatMap (pushCode width) ++ rest) =
      .ok (cells, rest')) : cells = values := by
  induction hcodes generalizing expanded cells with
  | nil =>
    cases h
    rfl
  | @cons code v codes values hcode _ ih =>
    have hlt : code < 256 ^ width := (List.getElem?_eq_some_iff.1 hcode).1.trans_le hdict
    rw [List.length_cons, dictCells, List.flatMap_cons, pushCode_eq hwidth, List.append_assoc] at h
    obtain ⟨code', mid, hread, h⟩ := Cursor.bind_eq_ok.1 h
    rw [reads_uint hlt] at hread
    cases hread
    obtain ⟨entry, mid', hentry, h⟩ := Cursor.bind_eq_ok.1 h
    rw [hcode] at hentry
    cases hentry
    split_ifs at h with hover
    · cases h
    · obtain ⟨more, hmore, rfl⟩ := Cursor.bind_pure_eq_ok.1 h
      rw [ih hmore]

/-- What the writer's dictionary is read as, if it is: the values. -/
theorem eq_of_decodeDictBytesChunk {payload : Bytes}
    (hbuild : buildDictPayload values = some payload)
    (hcount : values.length < 2 ^ 32) (hfit : FitFrames values) {cells : List (Option Bytes)}
    (h : decodeDictBytesChunk payload values.length = .ok cells) : cells = values := by
  obtain ⟨d, hd, rfl⟩ := buildDictPayload_eq_some hbuild
  obtain ⟨hle, hentries⟩ := hd.reads hfit
  have hread := readAll_eq_ok h
  obtain ⟨width, mid, hw, hread⟩ := Cursor.bind_eq_ok.1 hread
  rw [reads_uint (by omega)] at hw
  cases hw
  rw [if_neg (not_not.2 (codeWidthFor_mem _))] at hread
  obtain ⟨dictCount, mid', hc, hread⟩ := Cursor.bind_eq_ok.1 hread
  rw [reads_uint (hd.length.trans_lt hcount)] at hc
  cases hc
  rw [if_neg (lt_irrefl _)] at hread
  obtain ⟨dict, mid'', hdict, hread⟩ := Cursor.bind_eq_ok.1 hread
  rw [hentries] at hdict
  cases hdict
  rw [← List.append_nil (d.codes.flatMap _)] at hread
  exact eq_of_dictCells hle (le_pow_codeWidthFor (hd.length.trans_lt hcount)) hd.codes hread

/-- What is read of the writer's payload is within the limit, if it is a dictionary. -/
theorem expandable_of_nullable (hcount : values.length < 2 ^ 32) (hfit : FitFrames values)
    {cells : List (Option Bytes)}
    (h : appendNullableBytesCells (encodeBytesPayload values useDict).1
      (encodeBytesPayload values useDict).2 values.length = .ok cells) :
    Expandable useDict values := by
  rcases encodeBytesPayload_cases values useDict with henc | ⟨dict, -, hbuild, -, henc⟩
  · exact .inr (by rw [henc])
  · rw [henc] at h
    rw [← eq_of_decodeDictBytesChunk hbuild hcount hfit h]
    exact .inl (expandedSize_of_decodeDictBytesChunk h).2

theorem expandable_of_present (hcount : values.length < 2 ^ 32) (hfit : FitFrames values)
    {cells : List Bytes} (h : appendPresentBytesCells (encodeBytesPayload values useDict).1
      (encodeBytesPayload values useDict).2 values.length = .ok cells) :
    Expandable useDict values := by
  rcases encodeBytesPayload_cases values useDict with henc | ⟨dict, -, hbuild, -, henc⟩
  · exact .inr (by rw [henc])
  · rw [henc] at h
    obtain ⟨read, hread, -⟩ := exists_of_bind_ok h
    rw [← eq_of_decodeDictBytesChunk hbuild hcount hfit hread]
    exact .inl (expandedSize_of_decodeDictBytesChunk hread).2

/-- **The codec of a chunk.**  The payload that the writer chooses is never larger than the plain
one.  It reads back as the values, with `NULL`s and, if there are none, without, unless it is a
dictionary that stands for more bytes than the reader's limit: then it does not.  And whatever a
dictionary payload holds, the reader finds as many cells as it was asked for, and no more bytes than
its limit. -/
theorem chunk_codec (values : List (Option Bytes)) (useDict : Bool)
    (hcount : values.length < 2 ^ 32) (hfit : FitFrames values) :
    (encodeBytesPayload values useDict).2.length ≤ (encodePlainBytes values).length ∧
      (appendNullableBytesCells (encodeBytesPayload values useDict).1
        (encodeBytesPayload values useDict).2 values.length = .ok values ↔
          Expandable useDict values) ∧
      (∀ cells : List Bytes, values = cells.map some →
        (appendPresentBytesCells (encodeBytesPayload values useDict).1
          (encodeBytesPayload values useDict).2 values.length = .ok cells ↔
            Expandable useDict values)) ∧
      ∀ payload valueCount cells, decodeDictBytesChunk payload valueCount = .ok cells →
        cells.length = valueCount ∧ expandedSize cells ≤ maxDecodedChunkLen := by
  refine ⟨?_, ⟨expandable_of_nullable hcount hfit, appendNullableBytesCells_encode hcount hfit⟩, ?_,
    fun _ _ _ => expandedSize_of_decodeDictBytesChunk⟩
  · rcases encodeBytesPayload_cases values useDict with h | ⟨dict, -, -, hlt, h⟩
    · rw [h]
    · rw [h, length_encodePlainBytes]
      exact hlt.le
  · rintro cells rfl
    refine ⟨expandable_of_present hcount hfit, fun hsize => ?_⟩
    rw [List.length_map] at hcount ⊢
    exact appendPresentBytesCells_encode hcount hfit hsize

/-- A key that repeats, and a `NULL`. -/
def repeatedCells : List (Option Bytes) :=
  [some [7, 7, 7, 7, 7, 7, 7, 7], none, some [7, 7, 7, 7, 7, 7, 7, 7],
    some [7, 7, 7, 7, 7, 7, 7, 7]]

theorem chunk_codec_repeated :
    (encodeBytesPayload repeatedCells true).1 = .dict ∧
      appendNullableBytesCells (encodeBytesPayload repeatedCells true).1
        (encodeBytesPayload repeatedCells true).2 4 = .ok repeatedCells := by
  refine ⟨by decide, (chunk_codec repeatedCells true (by decide) ?_).2.1.2 (by decide)⟩
  intro b hb
  have hlen : b.length = 8 := by
    simp only [repeatedCells, List.mem_cons, Option.some.injEq, List.not_mem_nil, or_false,
      reduceCtorEq, false_or] at hb
    rcases hb with rfl | rfl | rfl <;> rfl
  rw [hlen]
  decide

end SteleDb
