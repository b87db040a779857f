import SteleDb.Session.CommitLog

/-!
# The catalog log, byte by byte

A frame of the catalog log has a magic, the length of its payload, the digest that chains it to the
record before, the payload and a checksum over all of it.  A reader goes through the file once: a
frame that is not all there ends the scan, one that is has to be right and to carry the digest of
the record before.

* `CatalogLog.replay_fileOfPayloads` : the file of payloads gives the records that a session makes
  of them;
* `CatalogLog.readFrame_encodeFrame`, `CatalogLog.readFrame_torn` : a whole frame is read back, and
  a torn one at the end of the file is not read;
* `logs_of_untorn` : both logs of a session, over any number of attempts and restarts, of which only
  the last attempt may leave part of its frame.  What is appended after part of a frame is lost
  (`torn_frame_hides_commit`), and it may keep the session from starting.
-/

namespace SteleDb

namespace CatalogLog

/-! ### Frames -/

/-- `STCG`. -/
def magic : Bytes := [0x53, 0x54, 0x43, 0x47]

/-- What is known of the records so far. -/
structure Chain where
  /-- The digest the next record carries. -/
  head : Digest := Digest.zero
  /-- Their number. -/
  len : ℕ := 0

/-- The digest that the record after carries. -/
def recordHash (prevHash : Digest) (payload : Bytes) : Digest := sha256 (prevHash.bytes ++ payload)

/-- The chain after a payload. -/
def Chain.link (c : Chain) (payload : Bytes) : Chain := ⟨recordHash c.head payload, c.len + 1⟩

/-- A frame without its checksum. -/
def covered (prevHash : Digest) (payload : Bytes) : Bytes :=
  magic ++ (leBytes 4 payload.length ++ (prevHash.bytes ++ payload))

/-- The frame of a payload. -/
def frame (prevHash : Digest) (payload : Bytes) : Bytes :=
  covered prevHash payload ++ crcBytes (covered prevHash payload)

/-- The frame of a record, with the digest for the next one. -/
def encodeFrame (record : CatalogRecord) (prevHash : Digest) : LogResult (Bytes × Digest) := do
  let payload ← record.encodePayload
  if 2 ^ 32 ≤ payload.length then .error .payloadTooLarge
  else pure (frame prevHash payload, recordHash prevHash payload)

/-- The frame at the front of the bytes that are left, after the chain `c`. -/
def readFrame (c : Chain) (bytes : Bytes) : FrameRead Chain CatalogRecord CatalogLogError :=
  if bytes.length < 8 then .stop
  else if bytes.take 4 ≠ magic then .stop
  else
    let len := leNat ((bytes.drop 4).take 4)
    if bytes.length < 8 + 32 + len + 4 then .stop
    else if maxRecordPayload < len then .fail .recordTooLarge
    else
      let prevHash := Digest.ofBytes ((bytes.drop 8).take 32)
      let payload := (bytes.drop (8 + 32)).take len
      if (crc32c (bytes.take (8 + 32 + len))).toNat ≠
          leNat ((bytes.drop (8 + 32 + len)).take 4) then .fail .crcMismatch
      else if prevHash ≠ c.head then .fail (.chainBroken c.len prevHash c.head)
      else
        match CatalogRecord.decodePayload payload with
        | .error e => .fail e
        | .ok record => .frame record (8 + 32 + len + 4) (c.link payload)

/-- The records in the file, and the digest the next one carries. -/
def replay (file : Bytes) : LogResult (List CatalogRecord × Digest) :=
  let s := scan readFrame {} file
  match s.error with
  | some e => .error e
  | none => .ok (s.records, s.state.head)

/-- The record has a payload that a reader accepts, and its fields are as their types promise. -/
def Readable (r : CatalogRecord) : Prop :=
  r.WellTyped ∧ ∃ payload, r.encodePayload = .ok payload ∧ payload.length ≤ maxRecordPayload

/-- The payload of a record that has one. -/
def payloadOf (r : CatalogRecord) : Bytes :=
  match r.encodePayload with
  | .ok payload => payload
  | .error _ => []

theorem payloadOf_eq {r : CatalogRecord} {payload : Bytes} (h : r.encodePayload = .ok payload) :
    payloadOf r = payload := by
  rw [payloadOf, h]

/-- `encodeFrame` gives the frame and the digest of the chain after it. -/
theorem encodeFrame_eq {r : CatalogRecord} (h : Readable r) (prevHash : Digest) :
    encodeFrame r prevHash =
      .ok (frame prevHash (payloadOf r), recordHash prevHash (payloadOf r)) := by
  obtain ⟨-, payload, hp, hlen⟩ := h
  have hshort : ¬ 2 ^ 32 ≤ payload.length := not_le.2 (hlen.trans_lt (by decide))
  rw [encodeFrame, hp, payloadOf_eq hp]
  exact if_neg hshort

variable {payload : Bytes} {prevHash : Digest}

theorem length_covered (prevHash : Digest) (payload : Bytes) :
    (covered prevHash payload).length = 8 + 32 + payload.length := by
  simp [covered, magic]
  omega

theorem length_frame (prevHash : Digest) (payload : Bytes) :
    (frame prevHash payload).length = 8 + 32 + payload.length + 4 := by
  rw [frame, List.length_append, length_covered, length_crcBytes]

theorem take_covered (prevHash : Digest) (payload : Bytes) :
    (covered prevHash payload).take 8 = magic ++ leBytes 4 payload.length := by
  rw [covered, ← List.append_assoc, List.take_left' (by simp [magic])]

/-- A frame torn at the end of the file is not read. -/
theorem readFrame_torn (c : Chain) (h : payload.length < 2 ^ 32) {n : ℕ}
    (hn : n < (frame prevHash payload).length) :
    readFrame c ((frame prevHash payload).take n) = .stop := by
  have hlt : ((frame prevHash payload).take n).length = n := List.length_take_of_le hn.le
  -- torn inside the magic and the length, or behind them
  by_cases hshort : n < 8
  · rw [readFrame, if_pos (by rw [hlt]; exact hshort)]
  · have hheader : ((frame prevHash payload).take n).take 8 =
        magic ++ leBytes 4 payload.length := by
      rw [List.take_take, min_eq_left (not_lt.1 hshort), frame,
        List.take_append_of_le_length (by rw [length_covered]; omega), take_covered]
    obtain ⟨hmagic, hcount⟩ := header_fields rfl h hheader
    rw [length_frame] at hn
    rw [readFrame, if_neg (by rw [hlt]; omega), if_neg (not_not.2 hmagic)]
    simp only [hcount]
    rw [if_pos (by rw [hlt]; omega)]

/-- What a reader says to a whole frame, whatever follows it. -/
theorem readFrame_frame (hshort : payload.length < 2 ^ 32) (prevHash : Digest) (c : Chain)
    (rest : Bytes) :
    readFrame c (frame prevHash payload ++ rest) =
      if maxRecordPayload < payload.length then .fail .recordTooLarge
      else if prevHash ≠ c.head then .fail (.chainBroken c.len prevHash c.head)
      else match CatalogRecord.decodePayload payload with
        | .error e => .fail e
        | .ok record => .frame record (frame prevHash payload).length (c.link payload) := by
  have hcov := length_covered prevHash payload
  have hflen := length_frame prevHash payload
  -- the fields of the frame, as the reader cuts them out
  have htake : (frame prevHash payload ++ rest).take (8 + 32 + payload.length) =
      covered prevHash payload := by
    rw [frame, List.append_assoc, List.take_left' hcov]
  have hcrc : ((frame prevHash payload ++ rest).drop (8 + 32 + payload.length)).take 4 =
      crcBytes (covered prevHash payload) := by
    rw [frame, List.append_assoc, List.drop_left' hcov, List.take_left' (length_crcBytes _)]
  have hheader : (frame prevHash payload ++ rest).take 8 = magic ++ leBytes 4 payload.length := by
    rw [← take_covered prevHash payload, ← htake, List.take_take, min_eq_left (by omega)]
  have hbody : (frame prevHash payload ++ rest).drop 8 =
      prevHash.bytes ++ (payload ++ (crcBytes (covered prevHash payload) ++ rest)) := by
    rw [frame, covered, ← List.append_assoc magic, List.append_assoc, List.append_assoc,
      List.drop_left' (by simp [magic]), List.append_assoc]
  have hprev : ((frame prevHash payload ++ rest).drop 8).take 32 = prevHash.bytes := by
    rw [hbody, List.take_left' (Digest.length_bytes _)]
  have hpayload : ((frame prevHash payload ++ rest).drop (8 + 32)).take payload.length =
      payload := by
    rw [← List.drop_drop, hbody, List.drop_left' (Digest.length_bytes _), List.take_left' rfl]
  obtain ⟨hmagic, hcount⟩ := header_fields rfl hshort hheader
  have htotal : (frame prevHash payload ++ rest).length =
      8 + 32 + payload.length + 4 + rest.length := by
    rw [List.length_append, hflen]
  rw [readFrame, if_neg (by omega), if_neg (not_not.2 hmagic)]
  simp only [hcount]
  rw [if_neg (by omega), htake, hcrc, hprev, hpayload, leNat_crcBytes, Digest.ofBytes_bytes, hflen]
  simp only [ne_eq, not_true_eq_false, if_false]

/-- A whole frame is read, whatever follows it. -/
theorem readFrame_encodeFrame {r : CatalogRecord} (h : Readable r) (c : Chain) (rest : Bytes) :
    readFrame c (frame c.head (payloadOf r) ++ rest) =
      .frame r (frame c.head (payloadOf r)).length (c.link (payloadOf r)) := by
  obtain ⟨hr, payload, hp, hlen⟩ := h
  rw [payloadOf_eq hp, readFrame_frame (hlen.trans_lt (by decide)), if_neg (not_lt.2 hlen),
    if_neg (not_not.2 rfl), CatalogRecord.decodePayload_encodePayload hp hr]

theorem advances_readFrame : Advances readFrame := by
  intro c bytes a len c' h
  unfold readFrame at h
  split at h
  · cases h
  split at h
  · cases h
  dsimp only at h
  split at h
  · cases h
  next hall =>
  split at h
  · cases h
  split at h
  · cases h
  split at h
  · cases h
  split at h
  · cases h
  cases h
  exact ⟨by omega, not_lt.1 hall⟩

/-- The file of payloads, one frame after another. -/
def fileOfPayloads : Chain → List Bytes → Bytes
  | _, [] => []
  | c, payload :: payloads => frame c.head payload ++ fileOfPayloads (c.link payload) payloads

/-- **A file of payloads** is read as a session reads them: one after another, up to the first that
is refused. -/
theorem replay_fileOfPayloads {payloads : List Bytes}
    (h : ∀ payload ∈ payloads, payload.length < 2 ^ 32) :
    (replay (fileOfPayloads {} payloads)).map Prod.fst =
      payloads.mapM CatalogRecord.readPayload := by
  have hscan : ∀ c : Chain, (scan readFrame c (fileOfPayloads c payloads)).result =
      payloads.mapM CatalogRecord.readPayload := by
    induction payloads with
    | nil => exact fun c => rfl
    | cons payload payloads ih =>
      intro c
      rw [List.forall_mem_cons] at h
      have hread := readFrame_frame h.1 c.head c (fileOfPayloads (c.link payload) payloads)
      rw [if_neg (not_not.2 rfl)] at hread
      rw [List.mapM_cons, CatalogRecord.readPayload, fileOfPayloads]
      -- a payload that is too large ends both readings, as does one that does not decode
      by_cases hlarge : maxRecordPayload < payload.length
      · rw [if_pos hlarge] at hread
        rw [if_pos hlarge, scan_of_fail hread]
        rfl
      rw [if_neg hlarge] at hread
      rw [if_neg hlarge]
      cases hdecode : CatalogRecord.decodePayload payload with
      | error e =>
        rw [hdecode] at hread
        rw [scan_of_fail hread]
        rfl
      | ok record =>
        rw [hdecode] at hread
        rw [scan_of_frame advances_readFrame hread, List.drop_left' rfl, Scan.result_prepend,
          ih h.2]
        cases payloads.mapM CatalogRecord.readPayload <;> rfl
  rw [← hscan {}, replay, Scan.result]
  cases (scan readFrame {} (fileOfPayloads {} payloads)).error <;> rfl

/-- The frames of the catalog log. -/
def format : FrameFormat (Fin 256) Chain CatalogRecord CatalogLogError where
  read := readFrame
  encode c r := frame c.head (payloadOf r)
  next c r := c.link (payloadOf r)
  Readable := Readable
  advances := advances_readFrame
  read_encode c _ rest h := readFrame_encodeFrame h c rest

theorem stopsAtTorn_format : format.StopsAtTorn := fun c r n h hn => by
  obtain ⟨-, payload, hp, hlen⟩ := h
  have hshort : (payloadOf r).length < 2 ^ 32 := by
    rw [payloadOf_eq hp]
    exact hlen.trans_lt (by decide)
  exact readFrame_torn c hshort hn

theorem read_format_nil (c : Chain) : format.read c [] = .stop := rfl

/-- The digest that the record after the given ones carries. -/
def headOf (rs : List CatalogRecord) : Digest := (format.nextAll {} rs).head

/-- What the session writes when it opens, appends and opens again. -/
def run (events : List (LogEvent CatalogRecord)) : Option (Writer (Fin 256) Chain CatalogRecord) :=
  format.run (format.rescan {}) (FrameFormat.fresh {}) events

/-- Every restart succeeds; the log reads back as the acknowledged records, with their chain. -/
theorem run_of_untorn {events : List (LogEvent CatalogRecord)} (h : format.Untorn events) :
    ∃ w, run events = some w ∧
      replay w.file = .ok (FrameFormat.completed events, headOf (FrameFormat.completed events)) ∧
      w.state.head = headOf (FrameFormat.completed events) := by
  obtain ⟨w, tail, hrun, hw, hack⟩ := FrameFormat.run_of_untorn FrameFormat.restores_rescan
    stopsAtTorn_format read_format_nil h
  have hhead : w.state.head = headOf (FrameFormat.completed events) := by
    rw [hw.state, hack]
    rfl
  have hscan : scan readFrame {} w.file = ⟨w.acknowledged, w.state, tail, none⟩ := hw.scan_file
  refine ⟨w, hrun, ?_, hhead⟩
  simp only [replay, hscan, hack, hhead]

theorem run_concat {events : List (LogEvent CatalogRecord)}
    {w : Writer (Fin 256) Chain CatalogRecord} (h : run events = some w) (r : CatalogRecord) :
    run (events ++ [.append r .completed]) =
      some ⟨w.file ++ frame w.state.head (payloadOf r), w.state.link (payloadOf r),
        w.acknowledged ++ [r]⟩ := by
  rw [run] at h ⊢
  rw [FrameFormat.run_append, h]
  rfl

theorem headOf_concat (rs : List CatalogRecord) (r : CatalogRecord) :
    headOf (rs ++ [r]) = recordHash (headOf rs) (payloadOf r) := by
  rw [headOf, FrameFormat.nextAll_append]
  rfl

/-- The next append after a restart is read back as well, if no attempt left part of a frame. -/
theorem replay_next {events : List (LogEvent CatalogRecord)} (h : format.Untorn events)
    (hd : FrameFormat.NoDebris events) {w : Writer (Fin 256) Chain CatalogRecord}
    (hw : run events = some w) {r : CatalogRecord} (hr : Readable r) :
    ∃ bytes head, encodeFrame r (headOf (FrameFormat.completed events)) = .ok (bytes, head) ∧
      replay (w.file ++ bytes) = .ok (FrameFormat.completed events ++ [r], head) := by
  obtain ⟨w₁, hw₁, -, hstate⟩ := run_of_untorn h
  cases hw.symm.trans hw₁
  -- the run with the append that succeeds is again one without debris
  obtain ⟨w', hw', hreplay, -⟩ := run_of_untorn (h.concat hd hr)
  rw [run_concat hw r] at hw'
  cases hw'
  refine ⟨_, _, encodeFrame_eq hr _, ?_⟩
  rwa [FrameFormat.completed_concat, headOf_concat, hstate] at hreplay

end CatalogLog

/-! ### Both logs -/

/-- Both logs survive restarts and attempts that fail: every restart succeeds and reads back the
acknowledged records in order with the head of their chain, and so it does after the next append,
if no attempt is made on a file that ends in part of a frame. -/
theorem logs_of_untorn {commits : List (LogEvent CommitRecord)}
    {ddl : List (LogEvent CatalogRecord)} (hc : CommitLog.chained.Untorn commits)
    (hd : CatalogLog.format.Untorn ddl) :
    (∃ w payloads, CommitLog.run commits = some w ∧ CommitLog.replay w.file = .ok payloads ∧
      payloads = CommitLog.Chain.payloads {} (FrameFormat.completed commits) ∧
      payloads.map (fun p => (CommitLog.ChainRecord.decode p).map CommitLog.ChainRecord.commit) =
        (FrameFormat.completed commits).map some ∧
      CommitLog.recoverChain w.file =
        .ok (CommitLog.Chain.after {} (FrameFormat.completed commits)) ∧
      (FrameFormat.NoDebris commits → ∀ r, CommitLog.WellTyped r →
        CommitLog.replay (w.file ++ CommitLog.encodeFrame
            ((CommitLog.Chain.after {} (FrameFormat.completed commits)).record r).encode) =
          .ok (CommitLog.Chain.payloads {} (FrameFormat.completed commits ++ [r])))) ∧
    ∃ w, CatalogLog.run ddl = some w ∧
      CatalogLog.replay w.file =
        .ok (FrameFormat.completed ddl, CatalogLog.headOf (FrameFormat.completed ddl)) ∧
      (FrameFormat.NoDebris ddl → ∀ r, CatalogLog.Readable r →
        ∃ bytes head,
          CatalogLog.encodeFrame r (CatalogLog.headOf (FrameFormat.completed ddl)) =
            .ok (bytes, head) ∧
          CatalogLog.replay (w.file ++ bytes) = .ok (FrameFormat.completed ddl ++ [r], head)) := by
  constructor
  · obtain ⟨w, hrun, hreplay, hrecover, -⟩ := CommitLog.run_of_untorn hc
    refine ⟨w, _, hrun, hreplay, rfl, CommitLog.Chain.decode_payloads ?_, hrecover,
      fun hnone r hr => CommitLog.replay_next hc hnone hrun hr⟩
    exact fun r hr => FrameFormat.readable_of_mem_completed hc hr
  · obtain ⟨w, hrun, hreplay, -⟩ := CatalogLog.run_of_untorn hd
    exact ⟨w, hrun, hreplay, fun hnone r hr => CatalogLog.replay_next hd hnone hrun hr⟩

/-- Two commits, of which the second is torn, and a restart. -/
def tornCommit : List (LogEvent CommitRecord) :=
  [.append ⟨1, 10⟩ .completed, .append ⟨2, 20⟩ (.torn 30), .reopen]

/-- A role that is dropped, and a restart. -/
def droppedUser : List (LogEvent CatalogRecord) := [.append (.dropUser 10 [97]) .completed, .reopen]

theorem untorn_tornCommit : CommitLog.chained.Untorn tornCommit where
  readable r o h := by
    simp only [tornCommit, List.mem_cons, LogEvent.append.injEq, reduceCtorEq, List.not_mem_nil,
      or_false] at h
    rcases h with ⟨rfl, -⟩ | ⟨rfl, -⟩ <;> exact ⟨by decide, by decide⟩
  partial_ r n h c := by
    simp only [tornCommit, List.mem_cons, LogEvent.append.injEq, reduceCtorEq, and_false,
      AppendOutcome.torn.injEq, List.not_mem_nil, or_false, false_or] at h
    obtain ⟨rfl, rfl⟩ := h
    have hlen := CommitLog.length_encodeFrame
      (CommitLog.ChainRecord.length_encode (c.record ⟨2, 20⟩))
    change 30 < (CommitLog.encodeFrame (c.record ⟨2, 20⟩).encode).length
    rw [hlen]
    decide
  debris := by simp [tornCommit]

theorem untorn_droppedUser : CatalogLog.format.Untorn droppedUser where
  readable r o h := by
    simp only [droppedUser, List.mem_cons, LogEvent.append.injEq, reduceCtorEq, List.not_mem_nil,
      or_false] at h
    obtain ⟨rfl, -⟩ := h
    exact ⟨⟨by decide, by decide, trivial⟩, _, rfl, by decide⟩
  partial_ r n h c := by simp [droppedUser] at h
  debris := by simp [droppedUser]

/-- The torn commit is forgotten, the other one and the dropped role are not. -/
theorem logs_of_tornCommit :
    ∃ w w' : _, CommitLog.run tornCommit = some w ∧ CatalogLog.run droppedUser = some w' ∧
      CommitLog.replay w.file = .ok (CommitLog.Chain.payloads {} [⟨1, 10⟩]) ∧
      CatalogLog.replay w'.file =
        .ok ([.dropUser 10 [97]], CatalogLog.headOf [.dropUser 10 [97]]) := by
  obtain ⟨⟨w, payloads, hrun, hreplay, rfl, -⟩, w', hrun', hreplay', -⟩ :=
    logs_of_untorn untorn_tornCommit untorn_droppedUser
  exact ⟨w, w', hrun, hrun', hreplay, hreplay'⟩

/-- One byte of a commit is left by a crash; the commit that is made and acknowledged after the
restart is never read back. -/
theorem torn_frame_hides_commit :
    ∃ w, CommitLog.run [.append ⟨1, 10⟩ (.torn 1), .reopen, .append ⟨1, 20⟩ .completed] = some w ∧
      w.acknowledged = [⟨1, 20⟩] ∧ CommitLog.replay w.file = .ok [] := by
  have hrun : (CommitLog.run [.append ⟨1, 10⟩ (.torn 1), .reopen, .append ⟨1, 20⟩ .completed]).map
      (fun w => (w.acknowledged, (CommitLog.replay w.file).toOption)) =
        some ([⟨1, 20⟩], some []) := by decide
  obtain ⟨w, hw, heq⟩ := Option.map_eq_some_iff.1 hrun
  obtain ⟨hack, hreplay⟩ := Prod.mk.inj heq
  refine ⟨w, hw, hack, ?_⟩
  rcases hr : CommitLog.replay w.file with e | payloads
  · rw [hr] at hreplay
    cases hreplay
  · rw [hr] at hreplay
    cases hreplay
    rfl

end SteleDb
