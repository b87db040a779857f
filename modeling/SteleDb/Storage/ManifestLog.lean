import SteleDb.Lib.FrameLog
import SteleDb.Storage.Checksum
import SteleDb.Storage.Engine

/-!
# The manifest file, byte by byte

The manifest is an append-only file of recovery points.  `store` appends a record and fsyncs it;
`load` scans the file and returns the last record before the first that it does not accept.  A
record has a magic, the fields, the list of live segments and a checksum over all of it; the
length is known from the count in the header.

* `ManifestLog.readRecord_encode`, `ManifestLog.readRecord_torn` : a whole record is read back,
  and a torn one at the end of the file is not read;
* `ManifestLog.load_encodeAll` : what `load` finds in a file of whole records, which is what
  `Manifest.load` says of the engine's manifest;
* `ManifestLog.load_of_attempts` : over any number of attempts to store, of which only the last may
  leave part of its record.  A record that is torn hides all that are stored after it
  (`ManifestLog.torn_record_hides_store`).
-/

namespace SteleDb

/-- A position of the write-ahead log. -/
structure LogOffset where
  /-- The log file. -/
  segmentIndex : U64
  /-- The byte in it. -/
  byteOffset : U64
  deriving DecidableEq, Repr

namespace ManifestLog

/-- A record of the manifest. -/
structure RecoveryPoint where
  /-- Where replay resumes. -/
  replayFloor : LogOffset
  /-- The last position known durable. -/
  durableFence : LogOffset
  /-- The live segments. -/
  liveSegments : List U64
  deriving DecidableEq, Repr

/-! ### Format -/

/-- `STCK`: a record of the format before segment lists, with a count of segments. -/
def legacyMagic : Bytes := [0x53, 0x54, 0x43, 0x4B]

/-- `STMF`. -/
def magic : Bytes := [0x53, 0x54, 0x4D, 0x46]

/-- Bytes of a legacy record. -/
def legacyRecordLen : ℕ := 4 + 16 + 16 + 8 + 4

/-- Bytes of a record before its list of segments. -/
def headerLen : ℕ := 4 + 16 + 16 + 4

/-- A position in a record. -/
def putOffset (o : LogOffset) : Bytes := U64.encode o.segmentIndex ++ U64.encode o.byteOffset

/-- The position that starts at byte `at_`. -/
def getOffset (bytes : Bytes) (at_ : ℕ) : LogOffset :=
  ⟨U64.decode ((bytes.drop at_).take 8), U64.decode ((bytes.drop (at_ + 8)).take 8)⟩

/-- The fixed part of a record. -/
def header (p : RecoveryPoint) : Bytes :=
  magic ++ (putOffset p.replayFloor ++ (putOffset p.durableFence ++
    leBytes 4 p.liveSegments.length))

/-- A record without its checksum. -/
def body (p : RecoveryPoint) : Bytes := header p ++ p.liveSegments.flatMap U64.encode

/-- A record. -/
def encode (p : RecoveryPoint) : Bytes := body p ++ crcBytes (body p)

/-- Eight bytes for each segment. -/
def decodeSegments : Bytes → List U64
  | b₀ :: b₁ :: b₂ :: b₃ :: b₄ :: b₅ :: b₆ :: b₇ :: rest =>
    U64.decode [b₀, b₁, b₂, b₃, b₄, b₅, b₆, b₇] :: decodeSegments rest
  | _ => []

/-- The checksum in the last four bytes is that of the bytes before. -/
def checked (record : Bytes) : Bool :=
  (crc32c (record.take (record.length - 4))).toNat = leNat (record.drop (record.length - 4))

/-- Decode a legacy record: its segments are the first `count` ones. -/
def decodeLegacy (record : Bytes) : Option RecoveryPoint :=
  if checked record then
    let count := leNat ((record.drop 36).take 8)
    if maxLiveSegments < count then none
    else some ⟨getOffset record 4, getOffset record 20,
      (List.range count).map fun i => Fin.ofNat (2 ^ 64) i⟩
  else none

/-- Decode a record. -/
def decode (record : Bytes) : Option RecoveryPoint :=
  if checked record then
    some ⟨getOffset record 4, getOffset record 20,
      decodeSegments ((record.take (record.length - 4)).drop headerLen)⟩
  else none

/-- The frame a decoded record makes; the scan stops at one that does not decode. -/
def found (decoded : Option RecoveryPoint) (len : ℕ) : FrameRead Unit RecoveryPoint Empty :=
  match decoded with
  | some p => .frame p len ()
  | none => .stop

/-- The record at the front of the bytes that are left. -/
def readRecord (bytes : Bytes) : FrameRead Unit RecoveryPoint Empty :=
  if bytes.length < headerLen then .stop
  else if bytes.take 4 = legacyMagic then
    if bytes.length < legacyRecordLen then .stop
    else found (decodeLegacy (bytes.take legacyRecordLen)) legacyRecordLen
  else if bytes.take 4 = magic then
    let count := leNat ((bytes.drop 36).take 4)
    if maxLiveSegments < count then .stop
    else
      let recordLen := headerLen + count * 8 + 4
      if bytes.length < recordLen then .stop
      else found (decode (bytes.take recordLen)) recordLen
  else .stop

/-- The last recovery point of the file. -/
def load (file : Bytes) : Option RecoveryPoint :=
  (scan (fun _ => readRecord) () file).records.getLast?

/-! ### Reading back -/

variable {p : RecoveryPoint}

@[simp] theorem length_putOffset (o : LogOffset) : (putOffset o).length = 16 := by
  simp [putOffset]

@[simp] theorem length_header (p : RecoveryPoint) : (header p).length = headerLen := by
  simp [header, magic, headerLen]

@[simp] theorem length_segments (l : List U64) : (l.flatMap U64.encode).length = l.length * 8 := by
  induction l with
  | nil => rfl
  | cons n l ih =>
    rw [List.flatMap_cons, List.length_append, ih, U64.length_encode, List.length_cons]
    omega

@[simp] theorem length_body (p : RecoveryPoint) :
    (body p).length = headerLen + p.liveSegments.length * 8 := by
  simp [body]

theorem length_encode (p : RecoveryPoint) :
    (encode p).length = headerLen + p.liveSegments.length * 8 + 4 := by
  simp [encode]

theorem decodeSegments_encode (l : List U64) : decodeSegments (l.flatMap U64.encode) = l := by
  induction l with
  | nil => rfl
  | cons n l ih =>
    have hn := U64.decode_encode n
    simp only [List.flatMap_cons, U64.encode, leBytes, List.cons_append, List.nil_append,
      decodeSegments] at hn ih ⊢
    rw [hn, ih]

theorem getOffset_append {pre : Bytes} {at_ : ℕ} (h : pre.length = at_) (rest : Bytes)
    (o : LogOffset) : getOffset (pre ++ (putOffset o ++ rest)) at_ = o := by
  subst h
  have h₁ := U64.encode_append o.segmentIndex (U64.encode o.byteOffset ++ rest)
  have h₂ := (U64.encode_append o.byteOffset rest).1
  rw [getOffset, putOffset, List.append_assoc, ← List.drop_drop, List.drop_left, h₁.1, h₁.2, h₂,
    U64.decode_encode, U64.decode_encode]

theorem checked_append (bytes : Bytes) : checked (bytes ++ crcBytes bytes) = true := by
  simp [checked]

theorem decode_encode_self (p : RecoveryPoint) : decode (encode p) = some p := by
  have hlen : (encode p).length - 4 = (body p).length := by simp [encode]
  have hfloor : getOffset (encode p) 4 = p.replayFloor := by
    have h := @getOffset_append magic 4 rfl (putOffset p.durableFence ++
      leBytes 4 p.liveSegments.length ++ p.liveSegments.flatMap U64.encode ++ crcBytes (body p))
      p.replayFloor
    simpa only [encode, body, header, List.append_assoc] using h
  have hfence : getOffset (encode p) 20 = p.durableFence := by
    have h := getOffset_append (by simp [magic] : (magic ++ putOffset p.replayFloor).length = 20)
      (leBytes 4 p.liveSegments.length ++ p.liveSegments.flatMap U64.encode ++ crcBytes (body p))
      p.durableFence
    simpa only [encode, body, header, List.append_assoc] using h
  rw [decode, if_pos (by rw [encode]; exact checked_append _), hfloor, hfence, hlen, encode,
    List.take_left, body, ← length_header p, List.drop_left, decodeSegments_encode]

/-- The magic and the count of a record, of which at least the header is there. -/
theorem header_fields {bytes : Bytes} (hcount : p.liveSegments.length < 2 ^ 32)
    (h : bytes.take headerLen = header p) :
    bytes.take 4 = magic ∧ leNat ((bytes.drop 36).take 4) = p.liveSegments.length := by
  have htake : bytes.take 4 = (bytes.take headerLen).take 4 := by simp [headerLen, List.take_take]
  have hdrop : (bytes.drop 36).take 4 = (bytes.take headerLen).drop 36 := by
    rw [List.drop_take]
    rfl
  refine ⟨by rw [htake, h]; rfl, ?_⟩
  have hpre : (magic ++ putOffset p.replayFloor ++ putOffset p.durableFence).length = 36 := by
    simp [magic]
  rw [hdrop, h, header, ← List.append_assoc, ← List.append_assoc, ← hpre, List.drop_left,
    leNat_leBytes hcount]

/-- A record with a header of `p`, and at most as many segments as are accepted. -/
theorem readRecord_of_header {bytes : Bytes} (hcount : p.liveSegments.length < 2 ^ 32)
    (hlen : headerLen ≤ bytes.length) (h : bytes.take headerLen = header p) :
    readRecord bytes =
      if maxLiveSegments < p.liveSegments.length then .stop
      else if bytes.length < (encode p).length then .stop
      else found (decode (bytes.take (encode p).length)) (encode p).length := by
  obtain ⟨hmagic, hc⟩ := header_fields hcount h
  have hne : ¬ magic = legacyMagic := by decide
  rw [readRecord, if_neg (not_lt.2 hlen), hmagic, if_neg hne, if_pos rfl]
  simp only [hc, length_encode]

theorem take_headerLen_encode (p : RecoveryPoint) : (encode p).take headerLen = header p := by
  rw [encode, body, List.append_assoc, ← length_header p, List.take_left]

/-- A whole record is read back, whatever follows it. -/
theorem readRecord_encode (hp : p.liveSegments.length ≤ maxLiveSegments) (rest : Bytes) :
    readRecord (encode p ++ rest) = .frame p (encode p).length () := by
  have hle : headerLen ≤ (encode p).length := by rw [length_encode]; omega
  have hcount : p.liveSegments.length < 2 ^ 32 := hp.trans_lt (by decide)
  have htake : (encode p ++ rest).take headerLen = header p := by
    rw [List.take_append_of_le_length hle, take_headerLen_encode]
  rw [readRecord_of_header hcount (by rw [List.length_append]; omega) htake,
    if_neg (not_lt.2 hp), if_neg (by rw [List.length_append]; omega), List.take_left,
    decode_encode_self]
  rfl

/-- A record with too many segments ends the scan. -/
theorem readRecord_overfull (hcount : p.liveSegments.length < 2 ^ 32)
    (hp : maxLiveSegments < p.liveSegments.length) (rest : Bytes) :
    readRecord (encode p ++ rest) = .stop := by
  have hle : headerLen ≤ (encode p).length := by rw [length_encode]; omega
  have htake : (encode p ++ rest).take headerLen = header p := by
    rw [List.take_append_of_le_length hle, take_headerLen_encode]
  rw [readRecord_of_header hcount (by rw [List.length_append]; omega) htake, if_pos hp]

/-- A record torn at the end of the file is not read. -/
theorem readRecord_torn (hcount : p.liveSegments.length < 2 ^ 32) {n : ℕ}
    (hn : n < (encode p).length) : readRecord ((encode p).take n) = .stop := by
  by_cases hshort : ((encode p).take n).length < headerLen
  · rw [readRecord, if_pos hshort]
  · have hlen : ((encode p).take n).length < (encode p).length := by
      rw [List.length_take]
      omega
    have hle : headerLen ≤ n := by
      rw [List.length_take] at hshort
      omega
    have htake : ((encode p).take n).take headerLen = header p := by
      rw [List.take_take, min_eq_left hle, take_headerLen_encode]
    rw [readRecord_of_header hcount (not_lt.1 hshort) htake, if_pos hlen, ite_self]

theorem found_eq_frame {decoded : Option RecoveryPoint} {len n : ℕ} {a : RecoveryPoint} {s : Unit}
    (h : found decoded len = .frame a n s) : n = len := by
  unfold found at h
  split at h <;> cases h
  rfl

theorem advances_readRecord : Advances fun _ : Unit => readRecord := by
  intro _ bytes a len s hr
  have h : readRecord bytes = .frame a len s := hr
  unfold readRecord at h
  split_ifs at h with hlen hlegacy hll hmagic
  · cases found_eq_frame h
    exact ⟨by decide, not_lt.1 hll⟩
  · dsimp only at h
    split_ifs at h with hmax hrl
    cases found_eq_frame h
    exact ⟨by omega, not_lt.1 hrl⟩

/-- The records of the manifest file. -/
def format : FrameFormat (Fin 256) Unit RecoveryPoint Empty where
  read _ := readRecord
  encode _ := encode
  next _ _ := ()
  Readable p := p.liveSegments.length ≤ maxLiveSegments
  advances := advances_readRecord
  read_encode _ _ rest h := readRecord_encode h rest

theorem format_read (bytes : Bytes) : format.read () bytes = readRecord bytes := rfl

/-- A file of whole records. -/
def encodeAll (ps : List RecoveryPoint) : Bytes := format.encodeAll () ps

theorem encodeAll_append_singleton (ps : List RecoveryPoint) (p : RecoveryPoint) :
    encodeAll (ps ++ [p]) = encodeAll ps ++ encode p := by
  simp [encodeAll, FrameFormat.encodeAll, format]

/-- Whole records, and then what the reader stops at. -/
theorem load_append {ps : List RecoveryPoint}
    (h : ∀ p ∈ ps, p.liveSegments.length ≤ maxLiveSegments) {tail : Bytes}
    (htail : readRecord tail = .stop) : load (encodeAll ps ++ tail) = ps.getLast? := by
  have hscan := format.scan_encodeAll_append () h tail
  have hstop : scan format.read () tail = ⟨[], (), tail, none⟩ := scan_of_stop htail
  have hrecords : (scan format.read () (encodeAll ps ++ tail)).records = ps := by
    rw [encodeAll, hscan, hstop]
    exact List.append_nil ps
  exact congrArg List.getLast? hrecords

/-- The engine's view of a record, with a position of the log counted in records. -/
def RecoveryPoint.abstract (position : LogOffset → ℕ) (p : RecoveryPoint) :
    SteleDb.RecoveryPoint :=
  ⟨position p.replayFloor, position p.durableFence, p.liveSegments.map Fin.val⟩

/-- In a file of whole records the scan reads up to the first with too many segments. -/
theorem records_encodeAll {ps : List RecoveryPoint}
    (h : ∀ p ∈ ps, p.liveSegments.length < 2 ^ 32) :
    (scan (fun _ => readRecord) () (encodeAll ps)).records =
      ps.takeWhile fun p => p.liveSegments.length ≤ maxLiveSegments := by
  induction ps with
  | nil => rw [encodeAll, FrameFormat.encodeAll, scan_of_stop (rfl : readRecord [] = .stop)]; rfl
  | cons p ps ih =>
    have hps := ih fun q hq => h q (List.mem_cons_of_mem p hq)
    have hcons : encodeAll (p :: ps) = encode p ++ encodeAll ps := rfl
    rw [hcons]
    by_cases hp : p.liveSegments.length ≤ maxLiveSegments
    · have hr : format.read () (encode p ++ encodeAll ps) = .frame p (encode p).length () :=
        (format_read _).trans (readRecord_encode hp _)
      have hscan := scan_of_frame format.advances hr
      rw [List.drop_left] at hscan
      rw [List.takeWhile_cons_of_pos (by simpa using hp), ← hps]
      exact congrArg Scan.records hscan
    · have hr : format.read () (encode p ++ encodeAll ps) = .stop :=
        (format_read _).trans (readRecord_overfull (h p List.mem_cons_self) (not_le.1 hp) _)
      rw [List.takeWhile_cons_of_neg (by simpa using hp)]
      exact congrArg Scan.records (scan_of_stop hr)

/-- The engine's manifest is read as the file is. -/
theorem load_encodeAll {ps : List RecoveryPoint}
    (h : ∀ p ∈ ps, p.liveSegments.length < 2 ^ 32) (position : LogOffset → ℕ) :
    (load (encodeAll ps)).map (RecoveryPoint.abstract position) =
      Manifest.load (ps.map fun p => some (p.abstract position)) := by
  have haccepted : ∀ p : RecoveryPoint, (p.abstract position).accepted =
      decide (p.liveSegments.length ≤ maxLiveSegments) := fun p => by
    simp [SteleDb.RecoveryPoint.accepted, RecoveryPoint.abstract]
  rw [load, records_encodeAll h, Manifest.load, List.takeWhile_map, List.getLast?_map]
  simp only [Function.comp_def, Option.any_some, haccepted]
  cases (ps.takeWhile fun p => decide (p.liveSegments.length ≤ maxLiveSegments)).getLast? <;> rfl

/-! ### Attempts -/

/-- How an attempt to store a point ends. -/
inductive StoreOutcome where
  /-- The record is appended and fsynced. -/
  | completed
  /-- A crash or a failed append leaves the first `n` bytes of the record. -/
  | torn (n : ℕ)
  deriving DecidableEq, Repr

/-- An attempt to store a point. -/
structure StoreAttempt where
  /-- The point. -/
  point : RecoveryPoint
  /-- How it ends. -/
  outcome : StoreOutcome
  deriving DecidableEq, Repr

/-- What an attempt adds to the file. -/
def StoreAttempt.written (a : StoreAttempt) : Bytes :=
  match a.outcome with
  | .completed => encode a.point
  | .torn n => (encode a.point).take n

/-- The point, if the attempt completes. -/
def StoreAttempt.stored (a : StoreAttempt) : Option RecoveryPoint :=
  match a.outcome with
  | .completed => some a.point
  | .torn _ => none

/-- The file after attempts, in order; every one appends. -/
def storeAll (attempts : List StoreAttempt) : Bytes :=
  attempts.foldl (fun file a => file ++ a.written) []

/-- No attempt is made on a file with part of a record at its end, no attempt that does not
complete leaves a whole record, and every point has a number of segments that is read back. -/
structure Untorn (attempts : List StoreAttempt) : Prop where
  accepted : ∀ a ∈ attempts, a.point.liveSegments.length ≤ maxLiveSegments
  partial_ : ∀ a ∈ attempts, ∀ n, a.outcome = .torn n → n < (encode a.point).length
  debris : ∀ a ∈ attempts.dropLast, ∀ n, a.outcome = .torn n → n = 0

/-- Attempts that leave no part of a record make a file of whole records. -/
theorem storeAll_eq_encodeAll {attempts : List StoreAttempt}
    (h : ∀ a ∈ attempts, ∀ n, a.outcome = .torn n → n = 0) :
    storeAll attempts = encodeAll (attempts.filterMap StoreAttempt.stored) := by
  induction attempts using List.reverseRecOn with
  | nil => rfl
  | append_singleton attempts a ih =>
    have hrest := ih fun b hb => h b (List.mem_append_left _ hb)
    rw [storeAll, List.foldl_append, List.foldl_cons, List.foldl_nil]
    change storeAll attempts ++ a.written = _
    rw [hrest, List.filterMap_append]
    rcases ho : a.outcome with _ | n
    · have hw : a.written = encode a.point := by rw [StoreAttempt.written, ho]
      have hs : a.stored = some a.point := by rw [StoreAttempt.stored, ho]
      rw [hw, List.filterMap_cons_some hs, List.filterMap_nil, encodeAll_append_singleton]
    · have hw : a.written = [] := by
        rw [StoreAttempt.written, ho, h a (by simp) n ho]
        rfl
      have hs : a.stored = none := by rw [StoreAttempt.stored, ho]
      rw [hw, List.filterMap_cons_none hs, List.filterMap_nil, List.append_nil, List.append_nil]

/-- `load` returns the point of the last completed store. -/
theorem load_of_attempts {attempts : List StoreAttempt} (h : Untorn attempts) :
    load (storeAll attempts) = (attempts.filterMap StoreAttempt.stored).getLast? := by
  rcases List.eq_nil_or_concat attempts with rfl | ⟨past, a, rfl⟩
  · rfl
  obtain ⟨haccepted, htorn, hdebris⟩ := h
  rw [List.concat_eq_append, List.dropLast_concat] at *
  have hpast := storeAll_eq_encodeAll hdebris
  have hread : ∀ p ∈ past.filterMap StoreAttempt.stored,
      p.liveSegments.length ≤ maxLiveSegments := fun p hp => by
    obtain ⟨b, hb, hbp⟩ := List.mem_filterMap.1 hp
    unfold StoreAttempt.stored at hbp
    split at hbp <;> cases hbp
    exact haccepted b (List.mem_append_left _ hb)
  have hsplit : storeAll (past ++ [a]) = storeAll past ++ a.written := by
    simp [storeAll]
  rcases ho : a.outcome with _ | n
  · -- the last attempt completes as well
    have hall : ∀ b ∈ past ++ [a], ∀ n, b.outcome = .torn n → n = 0 := fun b hb n hn => by
      rcases List.mem_append.1 hb with hb | hb
      · exact hdebris b hb n hn
      · rw [List.mem_singleton.1 hb, ho] at hn
        cases hn
    have hs : a.stored = some a.point := by rw [StoreAttempt.stored, ho]
    rw [storeAll_eq_encodeAll hall, ← List.append_nil (encodeAll _)]
    refine load_append (fun p hp => ?_) rfl
    rw [List.filterMap_append, List.filterMap_cons_some hs] at hp
    rcases List.mem_append.1 hp with hp | hp
    · exact hread p hp
    · rw [List.mem_singleton.1 hp]
      exact haccepted a (by simp)
  · have hw : a.written = (encode a.point).take n := by rw [StoreAttempt.written, ho]
    have hs : a.stored = none := by rw [StoreAttempt.stored, ho]
    have hcount : a.point.liveSegments.length < 2 ^ 32 :=
      (haccepted a (by simp)).trans_lt (by decide)
    rw [hsplit, hw, hpast, List.filterMap_append, List.filterMap_cons_none hs, List.filterMap_nil,
      List.append_nil]
    exact load_append hread (readRecord_torn hcount (htorn a (by simp) n ho))

/-- A point with the given live segments. -/
def pointOf (live : List U64) : RecoveryPoint := ⟨⟨0, 0⟩, ⟨0, 0⟩, live⟩

theorem load_of_completed_then_torn :
    load (storeAll [⟨pointOf [0], .completed⟩, ⟨pointOf [0, 1], .torn 50⟩]) =
      some (pointOf [0]) := by
  refine load_of_attempts ⟨?_, ?_, ?_⟩
  · decide
  · simp only [List.mem_cons, List.not_mem_nil, or_false, forall_eq_or_imp, forall_eq]
    refine ⟨fun n h => (nomatch h), fun n h => ?_⟩
    cases h
    rw [length_encode]
    decide
  · simp

/-- A record that is torn after one byte hides the record stored after it. -/
theorem torn_record_hides_store :
    load (storeAll [⟨pointOf [0], .completed⟩, ⟨pointOf [0, 1], .torn 1⟩,
        ⟨pointOf [0, 1], .completed⟩]) = some (pointOf [0]) ∧
      ([⟨pointOf [0], .completed⟩, ⟨pointOf [0, 1], .torn 1⟩,
        ⟨pointOf [0, 1], .completed⟩].filterMap StoreAttempt.stored).getLast? =
        some (pointOf [0, 1]) := by
  refine ⟨?_, rfl⟩
  decide +kernel

end ManifestLog

end SteleDb
