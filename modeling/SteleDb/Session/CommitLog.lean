import SteleDb.Lib.FrameLog
import SteleDb.Session.CatalogCodec

/-!
# The commit log, byte by byte

A frame of the commit log has a magic, the length of its payload, the payload and a checksum over
all of it.  The payload is a commit record: the transaction, its commit time, a sequence number and
the digest of the payload before it.  A restart reads the payloads back (`replay`) and then checks
their chain (`verifyChainRecover`), which also yields the head and the sequence number the next
record takes.

* `CommitLog.readFrame_encodeFrame`, `CommitLog.readFrame_torn` : a whole frame is read back, and
  a torn one at the end of the file is not read;
* `CommitLog.verifyFrom_payloads` : the chain the session writes is accepted;
* `CommitLog.run_of_untorn` : over any number of attempts and restarts.
-/

namespace SteleDb

namespace CommitLog

/-! ### Records -/

/-- Bytes of a payload. -/
def payloadLen : ℕ := 8 + 8 + 8 + 32

/-- A commit record as it is chained. -/
structure ChainRecord where
  /-- The transaction and its commit time. -/
  commit : CommitRecord
  /-- Its number. -/
  seq : U64
  /-- The digest of the record before. -/
  prevHash : Digest

/-- The payload of a record. -/
def ChainRecord.encode (r : ChainRecord) : Bytes :=
  leBytes 8 r.commit.txnId ++ (putI64 r.commit.commitTs ++ (U64.encode r.seq ++ r.prevHash.bytes))

/-- The digest the next record carries. -/
def ChainRecord.hash (r : ChainRecord) : Digest := sha256 r.encode

/-- The record of a payload. -/
def ChainRecord.decode (bytes : Bytes) : Option ChainRecord :=
  if bytes.length ≠ payloadLen then none
  else some
    { commit :=
        { txnId := leNat (bytes.take 8)
          commitTs := Int.bmod (leNat ((bytes.drop 8).take 8)) (2 ^ 64) }
      seq := U64.decode ((bytes.drop 16).take 8)
      prevHash := Digest.ofBytes (bytes.drop 24) }

/-- What the types of the fields promise: the transaction is a `u64`, the commit time an `i64`. -/
def WellTyped (r : CommitRecord) : Prop := r.txnId < 2 ^ 64 ∧ FitsI64 r.commitTs

@[simp] theorem length_putI64 (t : ℤ) : (putI64 t).length = 8 := length_leBytes 8 _

@[simp] theorem ChainRecord.length_encode (r : ChainRecord) : r.encode.length = payloadLen := by
  simp [encode, payloadLen]

theorem ChainRecord.decode_encode {r : ChainRecord} (h : WellTyped r.commit) :
    decode r.encode = some r := by
  have htxn : r.encode.take 8 = leBytes 8 r.commit.txnId := by
    rw [encode, List.take_left' (length_leBytes 8 _)]
  have hts : (r.encode.drop 8).take 8 = putI64 r.commit.commitTs := by
    rw [encode, List.drop_left' (length_leBytes 8 _), List.take_left' (length_putI64 _)]
  have hrest : r.encode.drop 16 = U64.encode r.seq ++ r.prevHash.bytes := by
    rw [show 16 = 8 + 8 from rfl, ← List.drop_drop, encode, List.drop_left' (length_leBytes 8 _),
      List.drop_left' (length_putI64 _)]
  have hseq : (r.encode.drop 16).take 8 = U64.encode r.seq := by
    rw [hrest, List.take_left' (U64.length_encode _)]
  have hprev : r.encode.drop 24 = r.prevHash.bytes := by
    rw [show 24 = 16 + 8 from rfl, ← List.drop_drop, hrest, List.drop_left' (U64.length_encode _)]
  rw [decode, if_neg (by simp), htxn, hts, hseq, hprev, leNat_leBytes (by simpa using h.1),
    PayloadCursor.bmod_leNat_putI64 h.2, U64.decode_encode, Digest.ofBytes_bytes]

/-! ### Frames -/

/-- `STCM`. -/
def magic : Bytes := [0x53, 0x54, 0x43, 0x4D]

/-- Errors of reading the frames. -/
inductive FrameError where
  /-- A complete record does not have the fixed size. -/
  | wrongLength
  /-- A complete record fails its checksum. -/
  | crcMismatch
  deriving DecidableEq, Repr

/-- A frame without its checksum. -/
def covered (payload : Bytes) : Bytes := magic ++ (leBytes 4 payload.length ++ payload)

/-- A frame. -/
def encodeFrame (payload : Bytes) : Bytes := covered payload ++ crcBytes (covered payload)

/-- The frame at the front of the bytes that are left.  A frame that is not all there ends the
scan; one that is has to be right. -/
def readFrame (bytes : Bytes) : FrameRead Unit Bytes FrameError :=
  if bytes.length < 8 then .stop
  else if bytes.take 4 ≠ magic then .stop
  else
    let len := leNat ((bytes.drop 4).take 4)
    if bytes.length < 8 + len + 4 then .stop
    else if len ≠ payloadLen then .fail .wrongLength
    else if (crc32c (bytes.take (8 + payloadLen))).toNat ≠
        leNat ((bytes.drop (8 + payloadLen)).take 4) then .fail .crcMismatch
    else .frame ((bytes.drop 8).take payloadLen) (8 + payloadLen + 4) ()

/-- The payloads in the file. -/
def replay (file : Bytes) : Except FrameError (List Bytes) :=
  let s := scan (fun _ => readFrame) () file
  match s.error with
  | some e => .error e
  | none => .ok s.records

variable {payload : Bytes}

theorem length_covered (h : payload.length = payloadLen) :
    (covered payload).length = 8 + payloadLen := by
  simp [covered, magic, h]
  omega

theorem length_encodeFrame (h : payload.length = payloadLen) :
    (encodeFrame payload).length = 8 + payloadLen + 4 := by
  rw [encodeFrame, List.length_append, length_covered h, length_crcBytes]

/-- What the reader finds first in bytes that start with the header of a frame. -/
theorem readFrame_of_header (h : payload.length = payloadLen) {bytes : Bytes}
    (hlen : 8 ≤ bytes.length) (htake : bytes.take 8 = (covered payload).take 8) :
    readFrame bytes =
      if bytes.length < 8 + payloadLen + 4 then .stop
      else if (crc32c (bytes.take (8 + payloadLen))).toNat ≠
          leNat ((bytes.drop (8 + payloadLen)).take 4) then .fail .crcMismatch
      else .frame ((bytes.drop 8).take payloadLen) (8 + payloadLen + 4) () := by
  have hheader : bytes.take 8 = magic ++ leBytes 4 payloadLen := by
    rw [htake, covered, ← List.append_assoc, h, List.take_left' (by simp [magic])]
  obtain ⟨hmagic, hcount⟩ := header_fields rfl (by decide) hheader
  rw [readFrame, if_neg (not_lt.2 hlen), if_neg (not_not.2 hmagic)]
  simp only [hcount, ne_eq, not_true_eq_false, if_false]

/-- A whole frame is read, whatever follows it. -/
theorem readFrame_encodeFrame (h : payload.length = payloadLen) (rest : Bytes) :
    readFrame (encodeFrame payload ++ rest) =
      .frame payload (encodeFrame payload).length () := by
  have hlen := length_encodeFrame h
  have hcov := length_covered h
  have htake : (encodeFrame payload ++ rest).take (8 + payloadLen) = covered payload := by
    rw [encodeFrame, List.append_assoc, List.take_left' hcov]
  have hcrc : ((encodeFrame payload ++ rest).drop (8 + payloadLen)).take 4 =
      crcBytes (covered payload) := by
    rw [encodeFrame, List.append_assoc, List.drop_left' hcov, List.take_left' (length_crcBytes _)]
  have hpayload : ((encodeFrame payload ++ rest).drop 8).take payloadLen = payload := by
    rw [encodeFrame, covered, ← List.append_assoc, List.append_assoc, List.append_assoc,
      List.drop_left' (by simp [magic]), List.take_left' h]
  have hheader : (encodeFrame payload ++ rest).take 8 = (covered payload).take 8 := by
    rw [← htake, List.take_take]
    rfl
  rw [readFrame_of_header h (by rw [List.length_append]; omega) hheader,
    if_neg (by rw [List.length_append]; omega), htake, hcrc, leNat_crcBytes, hpayload, hlen,
    if_neg (not_not.2 rfl)]

/-- A frame torn at the end of the file is not read. -/
theorem readFrame_torn (h : payload.length = payloadLen) {n : ℕ}
    (hn : n < (encodeFrame payload).length) : readFrame ((encodeFrame payload).take n) = .stop := by
  have hlen := length_encodeFrame h
  have hlt : ((encodeFrame payload).take n).length = n := List.length_take_of_le hn.le
  by_cases hshort : n < 8
  · rw [readFrame, if_pos (by rw [hlt]; exact hshort)]
  · have hheader : ((encodeFrame payload).take n).take 8 = (covered payload).take 8 := by
      rw [List.take_take, min_eq_left (not_lt.1 hshort), encodeFrame,
        List.take_append_of_le_length (by rw [length_covered h]; omega)]
    rw [readFrame_of_header h (by rw [hlt]; omega) hheader, if_pos (by rw [hlt]; omega)]

theorem advances_readFrame : Advances fun _ : Unit => readFrame := by
  intro _ bytes a len s hr
  have h : readFrame bytes = .frame a len s := hr
  unfold readFrame at h
  split at h
  · cases h
  split at h
  · cases h
  dsimp only at h
  split at h
  · cases h
  next hall =>
  split at h
  · cases h
  next hcount =>
  split at h
  · cases h
  cases h
  rw [not_not] at hcount
  rw [hcount] at hall
  exact ⟨by omega, not_lt.1 hall⟩

/-- The frames of the commit log. -/
def format : FrameFormat (Fin 256) Unit Bytes FrameError where
  read _ := readFrame
  encode _ := encodeFrame
  next _ _ := ()
  Readable payload := payload.length = payloadLen
  advances := advances_readFrame
  read_encode _ _ rest h := readFrame_encodeFrame h rest

/-! ### The chain -/

/-- Errors of the chain of records. -/
inductive ChainError where
  /-- A payload is no record. -/
  | decode (index : ℕ)
  /-- A record does not carry the digest of the one before. -/
  | brokenLink (index : ℕ) (expected found : Digest)
  deriving DecidableEq

/-- What a check of the chain yields. -/
structure RecoveredChain where
  /-- The digest of the last record. -/
  head : Digest := Digest.zero
  /-- The number of records. -/
  len : ℕ := 0
  /-- The last commit time. -/
  commitTs : SystemTimeMicros := 0
  /-- The last sequence number. -/
  seq : U64 := 0
  /-- The greatest transaction. -/
  maxTxnId : TxnId := 0

/-- Check payloads that follow a chain. -/
def verifyFrom (c : RecoveredChain) : List Bytes → Except ChainError RecoveredChain
  | [] => .ok c
  | bytes :: rest =>
    match ChainRecord.decode bytes with
    | none => .error (.decode c.len)
    | some r =>
      if r.prevHash ≠ c.head then .error (.brokenLink c.len c.head r.prevHash)
      else verifyFrom
        ⟨r.hash, c.len + 1, r.commit.commitTs, r.seq, max c.maxTxnId r.commit.txnId⟩ rest

/-- Check the chain of a log. -/
def verifyChainRecover (payloads : List Bytes) : Except ChainError RecoveredChain :=
  verifyFrom {} payloads

/-- `u64::saturating_add(1)`. -/
def seqSucc (n : U64) : U64 := if h : n.val + 1 < 2 ^ 64 then ⟨n.val + 1, h⟩ else n

/-- What the session keeps of the chain. -/
structure Chain where
  /-- The digest the next record carries. -/
  head : Digest := Digest.zero
  /-- The number the next record takes. -/
  seq : U64 := 1

namespace Chain

/-- The record of a commit. -/
def record (c : Chain) (r : CommitRecord) : ChainRecord := ⟨r, c.seq, c.head⟩

/-- The chain after a commit. -/
def next (c : Chain) (r : CommitRecord) : Chain := ⟨(c.record r).hash, seqSucc c.seq⟩

/-- The chain after commits. -/
def after (c : Chain) (rs : List CommitRecord) : Chain := rs.foldl next c

/-- The payloads of commits. -/
def payloads : Chain → List CommitRecord → List Bytes
  | _, [] => []
  | c, r :: rs => (c.record r).encode :: payloads (c.next r) rs

theorem length_of_mem_payloads {c : Chain} {rs : List CommitRecord} {p : Bytes}
    (h : p ∈ c.payloads rs) : p.length = payloadLen := by
  induction rs generalizing c with
  | nil => cases h
  | cons r rs ih =>
    rcases List.mem_cons.1 h with rfl | h
    · exact ChainRecord.length_encode _
    · exact ih h

/-- The payloads of commits hold the commits. -/
theorem decode_payloads {c : Chain} {rs : List CommitRecord} (h : ∀ r ∈ rs, WellTyped r) :
    (c.payloads rs).map (fun p => (ChainRecord.decode p).map ChainRecord.commit) = rs.map some := by
  induction rs generalizing c with
  | nil => rfl
  | cons r rs ih =>
    have hr : WellTyped (c.record r).commit := h r List.mem_cons_self
    rw [payloads, List.map_cons, List.map_cons, ChainRecord.decode_encode hr,
      ih fun b hb => h b (List.mem_cons_of_mem r hb)]
    rfl

end Chain

/-- The chain a session starts with after a restart. -/
def recoverChain (file : Bytes) : Except (FrameError ⊕ ChainError) Chain :=
  match replay file with
  | .error e => .error (.inl e)
  | .ok payloads =>
    match verifyChainRecover payloads with
    | .error e => .error (.inr e)
    | .ok c => .ok ⟨c.head, seqSucc c.seq⟩

/-- The chain the session writes is accepted. -/
theorem verifyFrom_payloads {c : Chain} {v : RecoveredChain} {rs : List CommitRecord}
    (h : ∀ r ∈ rs, WellTyped r) (hhead : v.head = c.head) (hseq : seqSucc v.seq = c.seq) :
    ∃ v', verifyFrom v (c.payloads rs) = .ok v' ∧
      (⟨v'.head, seqSucc v'.seq⟩ : Chain) = c.after rs := by
  induction rs generalizing c v with
  | nil => exact ⟨v, rfl, by rw [hhead, hseq]; rfl⟩
  | cons r rs ih =>
    have hr : WellTyped (c.record r).commit := h r List.mem_cons_self
    have hprev : (c.record r).prevHash = v.head := hhead.symm
    have hafter : c.after (r :: rs) = (c.next r).after rs := rfl
    obtain ⟨v', hv', hchain⟩ := @ih (c.next r) ⟨(c.record r).hash, v.len + 1, r.commitTs, c.seq,
      max v.maxTxnId r.txnId⟩ (fun b hb => h b (List.mem_cons_of_mem r hb)) rfl rfl
    refine ⟨v', ?_, by rw [hafter, hchain]⟩
    rw [Chain.payloads, verifyFrom, ChainRecord.decode_encode hr]
    simp only [hprev, ne_eq, not_true_eq_false, if_false]
    exact hv'

/-! ### The log and its chain together -/

/-- Read a frame and check its link: `replay` and `verifyChainRecover` in one pass. -/
def readLink (c : Chain) (bytes : Bytes) : FrameRead Chain CommitRecord (FrameError ⊕ ChainError) :=
  match readFrame bytes with
  | .stop => .stop
  | .fail e => .fail (.inl e)
  | .frame payload len () =>
    match ChainRecord.decode payload with
    | none => .fail (.inr (.decode 0))
    | some r =>
      if r.prevHash ≠ c.head then .fail (.inr (.brokenLink 0 c.head r.prevHash))
      else .frame r.commit len ⟨r.hash, seqSucc r.seq⟩

/-- The commit log as the session writes it. -/
def chained : FrameFormat (Fin 256) Chain CommitRecord (FrameError ⊕ ChainError) where
  read := readLink
  encode c r := encodeFrame (c.record r).encode
  next := Chain.next
  Readable := WellTyped
  advances := by
    intro c bytes a len c' h
    unfold readLink at h
    split at h
    · cases h
    · cases h
    · next payload len' hr =>
      split at h
      · cases h
      · split at h
        · cases h
        · cases h
          exact advances_readFrame () _ _ _ () hr
  read_encode := by
    intro c r rest h
    have hr : WellTyped (c.record r).commit := h
    rw [readLink, readFrame_encodeFrame (ChainRecord.length_encode _)]
    simp only [ChainRecord.decode_encode hr]
    exact if_neg (not_not.2 rfl)

theorem readLink_eq_stop {c : Chain} {bytes : Bytes} :
    readLink c bytes = .stop ↔ readFrame bytes = .stop := by
  unfold readLink
  split
  · next h => exact iff_of_true rfl h
  · next h => simp [h]
  · next h =>
    split
    · simp [h]
    · split <;> simp [h]

theorem stopsAtTorn_chained : chained.StopsAtTorn := fun _ _ _ _ hn =>
  readLink_eq_stop.2 (readFrame_torn (ChainRecord.length_encode _) hn)

theorem read_chained_nil (c : Chain) : chained.read c [] = .stop := rfl

theorem nextAll_chained (c : Chain) (rs : List CommitRecord) :
    chained.nextAll c rs = c.after rs := rfl

theorem encodeAll_chained (c : Chain) (rs : List CommitRecord) :
    chained.encodeAll c rs = format.encodeAll () (c.payloads rs) := by
  induction rs generalizing c with
  | nil => rfl
  | cons r rs ih =>
    have htail : chained.encodeAll (c.next r) rs = format.encodeAll () ((c.next r).payloads rs) :=
      ih (c.next r)
    exact congrArg (encodeFrame (c.record r).encode ++ ·) htail

/-- A restart reads back what is in the file. -/
theorem replay_of_inStep {w : Writer (Fin 256) Chain CommitRecord} {tail : Bytes}
    (h : FrameFormat.InStep chained {} w tail) :
    replay w.file = .ok (Chain.payloads {} w.acknowledged) := by
  have hstop : readFrame tail = .stop := readLink_eq_stop.1 h.stops
  have hscan : scan format.read () w.file = ⟨Chain.payloads {} w.acknowledged, (), tail, none⟩ := by
    rw [h.file, encodeAll_chained,
      format.scan_encodeAll_append () fun p hp => Chain.length_of_mem_payloads hp]
    have hnil : scan format.read () tail = ⟨[], (), tail, none⟩ := scan_of_stop hstop
    rw [show format.nextAll () _ = () from rfl, hnil]
    simp [Scan.prepend]
  have hscan' : scan (fun _ => readFrame) () w.file =
      ⟨Chain.payloads {} w.acknowledged, (), tail, none⟩ := hscan
  simp only [replay, hscan']

theorem recoverChain_of_inStep {w : Writer (Fin 256) Chain CommitRecord} {tail : Bytes}
    (h : FrameFormat.InStep chained {} w tail) : recoverChain w.file = .ok w.state := by
  obtain ⟨v, hv, hchain⟩ := @verifyFrom_payloads {} {} _ h.readable rfl rfl
  have hverify : verifyChainRecover (Chain.payloads {} w.acknowledged) = .ok v := hv
  rw [recoverChain, replay_of_inStep h]
  simp only [hverify, hchain, h.state]
  rfl

/-- What the session writes when it opens, appends and opens again. -/
def run (events : List (LogEvent CommitRecord)) : Option (Writer (Fin 256) Chain CommitRecord) :=
  chained.run (fun file => (recoverChain file).toOption) (FrameFormat.fresh {}) events

theorem run_concat {events : List (LogEvent CommitRecord)}
    {w : Writer (Fin 256) Chain CommitRecord} (h : run events = some w) (r : CommitRecord) :
    run (events ++ [.append r .completed]) =
      some ⟨w.file ++ encodeFrame (w.state.record r).encode, w.state.next r,
        w.acknowledged ++ [r]⟩ := by
  rw [run] at h ⊢
  rw [FrameFormat.run_append, h]
  rfl

/-- Every restart succeeds; the log reads back as the acknowledged commits, with their chain. -/
theorem run_of_untorn {events : List (LogEvent CommitRecord)} (h : chained.Untorn events) :
    ∃ w, run events = some w ∧
      replay w.file = .ok (Chain.payloads {} (FrameFormat.completed events)) ∧
      recoverChain w.file = .ok (Chain.after {} (FrameFormat.completed events)) ∧
      w.state = Chain.after {} (FrameFormat.completed events) := by
  have hrestores : FrameFormat.Restores chained (fun file => (recoverChain file).toOption) {} :=
    fun w tail hw => by
      change (recoverChain w.file).toOption = _
      rw [recoverChain_of_inStep hw]
      rfl
  obtain ⟨w, tail, hrun, hw, hack⟩ :=
    FrameFormat.run_of_untorn hrestores stopsAtTorn_chained read_chained_nil h
  have hstate : w.state = Chain.after {} (FrameFormat.completed events) := by
    rw [hw.state, hack, nextAll_chained]
  refine ⟨w, hrun, ?_, ?_, hstate⟩
  · rw [replay_of_inStep hw, hack]
  · rw [recoverChain_of_inStep hw, hstate]

/-- The next append after a restart is read back as well, if no attempt left part of a frame. -/
theorem replay_next {events : List (LogEvent CommitRecord)} (h : chained.Untorn events)
    (hd : FrameFormat.NoDebris events) {w : Writer (Fin 256) Chain CommitRecord}
    (hw : run events = some w) {r : CommitRecord} (hr : WellTyped r) :
    replay (w.file ++
        encodeFrame ((Chain.after {} (FrameFormat.completed events)).record r).encode) =
      .ok (Chain.payloads {} (FrameFormat.completed events ++ [r])) := by
  obtain ⟨w₁, hw₁, -, -, hstate⟩ := run_of_untorn h
  cases hw.symm.trans hw₁
  obtain ⟨w', hw', hreplay, -⟩ := run_of_untorn (h.concat hd hr)
  rw [run_concat hw r] at hw'
  cases hw'
  rwa [FrameFormat.completed_concat, hstate] at hreplay

end CommitLog

end SteleDb
