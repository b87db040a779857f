import SteleDb.Lib.Cursor
import SteleDb.Storage.Dml

/-!
# The bytes of a redo record

A redo record is the concatenation of its entries: a tag byte, then the frame of a version or of a
close.  Frames carry their own lengths, so that the record needs no envelope.  A leg of a
transaction starts with a byte that is no tag, and the transaction's id.

* `Version.exact_decode`, `Close.exact_decode` : a frame is read back, and nothing else is accepted;
* `encodeRedo_eq_length` : the lengths the log accounts for are those of the bytes;
* `redo_codec_exact` : records are read back, cut ones only between two entries, and what is read
  has no other encoding.
-/

namespace SteleDb

/-- Why bytes are not a redo record. -/
inductive RedoCorrupt where
  /-- From the frame of a version, or from the record itself. -/
  | delta (what : String)
  /-- From the frame of a close. -/
  | validity (what : String)
  deriving DecidableEq, Repr

/-- A reader of bytes. -/
abbrev FrameCursor := Cursor (Fin 256) RedoCorrupt

/-! ### Fixed-width fields -/

theorem i64ToLeBytes_i64OfLeBytes {bs : Bytes} (h : bs.length = 8) :
    i64ToLeBytes (i64OfLeBytes bs) = bs := by
  have hlt := leNat_lt bs
  rw [h] at hlt
  have hmod : (i64OfLeBytes bs % 2 ^ 64).toNat = leNat bs := by
    simp only [i64OfLeBytes]
    split_ifs <;> omega
  rw [i64ToLeBytes, hmod, ← h, leBytes_leNat]

theorem fitsI64_i64OfLeBytes {bs : Bytes} (h : bs.length = 8) : FitsI64 (i64OfLeBytes bs) := by
  have hlt := leNat_lt bs
  rw [h] at hlt
  simp only [FitsI64, i64OfLeBytes, i64Min, i64Max]
  split_ifs <;> omega

namespace FrameCursor

open Cursor (Exact)

/-- Four bytes. -/
def u32 (e : RedoCorrupt) : FrameCursor ℕ := do
  let bytes ← Cursor.take e 4
  pure (leNat bytes)

/-- Eight bytes. -/
def u64 (e : RedoCorrupt) : FrameCursor ℕ := do
  let bytes ← Cursor.take e 8
  pure (leNat bytes)

/-- Eight bytes of a sequence number. -/
def seq (e : RedoCorrupt) : FrameCursor Seq := do
  let n ← u64 e
  pure (Fin.ofNat (2 ^ 64) n)

/-- Eight bytes with a sign. -/
def i64 (e : RedoCorrupt) : FrameCursor ℤ := do
  let bytes ← Cursor.take e 8
  pure (i64OfLeBytes bytes)

theorem exact_take_leNat (e : RedoCorrupt) (n : ℕ) :
    Exact (Cursor.take e n >>= fun bytes => pure (leNat bytes) : FrameCursor ℕ) (leBytes n)
      (· < 256 ^ n) := by
  refine ((Exact.take e n).map (leBytes n) fun bytes h => ?_).congr (fun x => ?_) fun _ _ => rfl
  · rw [← h, leBytes_leNat]
  · rw [length_leBytes, leNat_leBytes_mod]
    constructor
    · rintro ⟨-, hx⟩
      rw [hx]
      exact Nat.mod_lt _ (by positivity)
    · intro hx
      exact ⟨rfl, (Nat.mod_eq_of_lt hx).symm⟩

theorem exact_u32 (e : RedoCorrupt) : Exact (u32 e) (leBytes 4) (· < 2 ^ 32) :=
  exact_take_leNat e 4

theorem exact_u64 (e : RedoCorrupt) : Exact (u64 e) (leBytes 8) (· < 2 ^ 64) :=
  exact_take_leNat e 8

theorem exact_seq (e : RedoCorrupt) :
    Exact (seq e) (fun n => leBytes 8 n.val) fun _ => True := by
  refine ((exact_u64 e).map Fin.val fun n h => ?_).congr (fun n => ?_) fun _ _ => rfl
  · exact Nat.mod_eq_of_lt h
  · rw [iff_true]
    exact ⟨n.isLt, (Fin.ofNat_val_eq_self n).symm⟩

theorem exact_i64 (e : RedoCorrupt) : Exact (i64 e) i64ToLeBytes FitsI64 := by
  refine ((Exact.take e 8).map i64ToLeBytes fun bytes h => i64ToLeBytes_i64OfLeBytes h).congr
    (fun t => ?_) fun _ _ => rfl
  have hlen : (i64ToLeBytes t).length = 8 := length_leBytes 8 _
  constructor
  · rintro ⟨-, ht⟩
    rw [ht]
    exact fitsI64_i64OfLeBytes hlen
  · rintro ⟨hmin, hmax⟩
    exact ⟨hlen, (i64OfLeBytes_i64ToLeBytes hmin hmax).symm⟩

end FrameCursor

/-! ### Closes -/

namespace Close

open Cursor (Exact)
open FrameCursor

/-- What the types of the fields promise: instants are `i64`s, the transaction a `u64`. -/
def WellTyped (c : Close) : Prop :=
  FitsI64 c.sysFrom ∧ FitsI64 c.sysTo ∧ c.closedBy.txnId < 2 ^ 64 ∧ FitsI64 c.closedBy.committedAt

instance (c : Close) : Decidable c.WellTyped := inferInstanceAs (Decidable (_ ∧ _ ∧ _ ∧ _))

/-- The frame of a close. -/
def frame (c : Close) : Bytes :=
  leBytes 4 c.businessKey.length ++ (leBytes 4 c.closedBy.principal.length ++
    (i64ToLeBytes c.sysFrom ++ (leBytes 8 c.seq.val ++ (i64ToLeBytes c.sysTo ++
      (leBytes 8 c.closedBy.txnId ++ (i64ToLeBytes c.closedBy.committedAt ++
        (c.businessKey ++ c.closedBy.principal)))))))

/-- The frame of a close, if it is small enough. -/
def encode (c : Close) : Except ValidityError Bytes :=
  match c.checkEncodable with
  | .error e => .error e
  | .ok () => .ok c.frame

/-- A close off the front of some bytes. -/
def decode : FrameCursor Close := do
  let short := RedoCorrupt.validity "short read on close header"
  let businessLen ← u32 short
  let principalLen ← u32 short
  let sysFrom ← i64 short
  let seq ← FrameCursor.seq short
  let sysTo ← i64 short
  let closedTxn ← u64 short
  let closedAt ← i64 short
  if maxCloseFrameLen < headerLen + businessLen + principalLen then
    Cursor.fail (.validity "frame length exceeds MAX_CLOSE_FRAME_LEN")
  else do
    let body := RedoCorrupt.validity "frame body shorter than declared"
    let businessKey ← Cursor.take body businessLen
    let principal ← Cursor.take body principalLen
    pure ⟨businessKey, sysFrom, seq, sysTo, ⟨closedTxn, closedAt, principal⟩⟩

theorem length_frame (c : Close) : c.frame.length = c.encodedSize := by
  simp only [frame, List.length_append, length_leBytes, i64ToLeBytes, encodedSize, headerLen]
  omega

/-- **The codec of a close is exact.** -/
theorem exact_decode : Exact decode frame fun c => c.Encodable ∧ c.WellTyped := by
  have h : Exact decode _ _ := Exact.bind (fun c : Close => c.businessKey.length) (exact_u32 _)
    (fun bl _ =>
    Exact.bind (fun c : Close => c.closedBy.principal.length) (exact_u32 _) (fun pl _ =>
    Exact.bind Close.sysFrom (exact_i64 _) (fun sf _ =>
    Exact.bind Close.seq (exact_seq _) (fun sq _ =>
    Exact.bind Close.sysTo (exact_i64 _) (fun st _ =>
    Exact.bind (fun c : Close => c.closedBy.txnId) (exact_u64 _) (fun tx _ =>
    Exact.bind (fun c : Close => c.closedBy.committedAt) (exact_i64 _) (fun ca _ =>
    Exact.guard (maxCloseFrameLen < headerLen + bl + pl) _
      (Exact.bind Close.businessKey (Exact.take _ bl) (fun k _ =>
    Exact.bind (fun c : Close => c.closedBy.principal) (Exact.take _ pl) (fun p _ =>
    Exact.pure (⟨k, sf, sq, st, ⟨tx, ca, p⟩⟩ : Close))
      fun _ _ _ hc => congrArg (fun c : Close => c.closedBy.principal) hc)
      fun _ _ _ hc => congrArg Close.businessKey hc.2))
      fun _ _ _ hc => congrArg (fun c : Close => c.closedBy.committedAt) hc.2.2.2)
      fun _ _ _ hc => congrArg (fun c : Close => c.closedBy.txnId) hc.2.2.2.2)
      fun _ _ _ hc => congrArg Close.sysTo hc.2.2.2.2.2)
      fun _ _ _ hc => congrArg Close.seq hc.2.2.2.2.2.2)
      fun _ _ _ hc => congrArg Close.sysFrom hc.2.2.2.2.2.2.2)
      fun _ _ _ hc => hc.2.2.2.2.2.2.2.1)
      fun _ _ _ hc => hc.2.2.2.2.2.2.2.1
  refine h.congr (fun c => ?_) fun c _ => ?_
  · simp only [Encodable, WellTyped, encodedSize, not_lt]
    tauto
  · simp only [frame, List.append_nil]

end Close

/-! ### Versions -/

namespace Version

open Cursor (Exact)
open FrameCursor

/-- What the types of the fields promise, and that the version is not resolved: instants are `i64`s,
the transaction a `u64`, the overlay is empty. -/
def WellTyped (v : Version) : Prop :=
  FitsI64 v.sysFrom ∧ v.provenance.txnId < 2 ^ 64 ∧ FitsI64 v.provenance.committedAt ∧
    v.sysTo = systemTimeOpen ∧ v.closedBy = none

instance (v : Version) : Decidable v.WellTyped := inferInstanceAs (Decidable (_ ∧ _ ∧ _ ∧ _ ∧ _))

/-- The length field of a `NULL` payload. -/
def payloadNullSentinel : ℕ := 2 ^ 32 - 1

/-- The length field of a payload. -/
def payloadLen (v : Version) : ℕ := (v.payload.map List.length).getD payloadNullSentinel

/-- The frame of a version; the overlay is not part of it. -/
def frame (v : Version) : Bytes :=
  leBytes 4 v.businessKey.length ++ (leBytes 4 v.payloadLen ++
    (leBytes 4 v.provenance.principal.length ++ (i64ToLeBytes v.sysFrom ++
      (leBytes 8 v.provenance.txnId ++ (i64ToLeBytes v.provenance.committedAt ++
        (leBytes 8 v.seq.val ++ (v.businessKey ++ (v.payload.getD [] ++
          v.provenance.principal))))))))

/-- The frame of a version, if it is small enough. -/
def encode (v : Version) : Except DeltaError Bytes :=
  match v.checkEncodable with
  | .error e => .error e
  | .ok () => .ok v.frame

/-- A version off the front of some bytes. -/
def decode : FrameCursor Version := do
  let short := RedoCorrupt.delta "short read on version header"
  let businessLen ← u32 short
  let payloadRaw ← u32 short
  let principalLen ← u32 short
  let sysFrom ← i64 short
  let txnId ← u64 short
  let committedAt ← i64 short
  let seq ← FrameCursor.seq short
  let payloadLen := if payloadRaw = payloadNullSentinel then 0 else payloadRaw
  if maxVersionFrameLen < headerLen + businessLen + payloadLen + principalLen then
    Cursor.fail (.delta "frame length exceeds MAX_VERSION_FRAME_LEN")
  else do
    let body := RedoCorrupt.delta "frame body shorter than declared"
    let businessKey ← Cursor.take body businessLen
    let payload ← Cursor.take body payloadLen
    let principal ← Cursor.take body principalLen
    pure (Version.mkOpen businessKey sysFrom seq ⟨txnId, committedAt, principal⟩
      (if payloadRaw = payloadNullSentinel then none else some payload))

theorem length_frame (v : Version) : v.frame.length = v.encodedSize := by
  have hpayload : (v.payload.getD []).length = (v.payload.map List.length).getD 0 := by
    cases v.payload <;> rfl
  simp only [frame, List.length_append, length_leBytes, i64ToLeBytes, encodedSize, headerLen,
    hpayload]
  omega

/-- The payload and its length field, from what was read. -/
theorem payload_of_raw {v : Version} {raw : ℕ} {b : Bytes}
    (hb : b.length = if raw = payloadNullSentinel then 0 else raw)
    (hv : v.payload = if raw = payloadNullSentinel then none else some b) :
    v.payload.getD [] = b ∧ v.payloadLen = raw := by
  rw [payloadLen, hv]
  split_ifs at hb ⊢ with hraw
  · exact ⟨(List.length_eq_zero_iff.1 hb).symm, hraw.symm⟩
  · exact ⟨rfl, hb⟩

theorem eq_mkOpen_iff {v : Version} {p : Option Bytes} :
    v = mkOpen v.businessKey v.sysFrom v.seq v.provenance p ↔
      v.payload = p ∧ v.sysTo = systemTimeOpen ∧ v.closedBy = none := by
  obtain ⟨k, t, n, e, w, c, b⟩ := v
  simp only [mkOpen, Version.mk.injEq, true_and]
  tauto

/-- **The codec of a version is exact.** -/
theorem exact_decode : Exact decode frame fun v => v.Encodable ∧ v.WellTyped := by
  have h : Exact decode _ _ := Exact.bind (fun v : Version => v.businessKey.length) (exact_u32 _)
    (fun bl _ =>
    Exact.bind payloadLen (exact_u32 _) (fun raw _ =>
    Exact.bind (fun v : Version => v.provenance.principal.length) (exact_u32 _) (fun pl _ =>
    Exact.bind Version.sysFrom (exact_i64 _) (fun sf _ =>
    Exact.bind (fun v : Version => v.provenance.txnId) (exact_u64 _) (fun tx _ =>
    Exact.bind (fun v : Version => v.provenance.committedAt) (exact_i64 _) (fun ca _ =>
    Exact.bind Version.seq (exact_seq _) (fun sq _ =>
    Exact.guard (maxVersionFrameLen <
      headerLen + bl + (if raw = payloadNullSentinel then 0 else raw) + pl) _
    (Exact.bind Version.businessKey (Exact.take _ bl) (fun k _ =>
    Exact.bind (fun v : Version => v.payload.getD [])
      (Exact.take _ (if raw = payloadNullSentinel then 0 else raw)) (fun b hb =>
    Exact.bind (fun v : Version => v.provenance.principal) (Exact.take _ pl) (fun p _ =>
    Exact.pure (Version.mkOpen k sf sq ⟨tx, ca, p⟩
      (if raw = payloadNullSentinel then none else some b)))
      fun _ _ _ hv => congrArg (fun v : Version => v.provenance.principal) hv)
      fun _ _ hb hv => (payload_of_raw hb (congrArg Version.payload hv.2)).1)
      fun _ _ _ hv => congrArg Version.businessKey hv.2.2))
      fun _ _ _ hv => congrArg Version.seq hv.2.2.2.2)
      fun _ _ _ hv => congrArg (fun v : Version => v.provenance.committedAt) hv.2.2.2.2.2)
      fun _ _ _ hv => congrArg (fun v : Version => v.provenance.txnId) hv.2.2.2.2.2.2)
      fun _ _ _ hv => congrArg Version.sysFrom hv.2.2.2.2.2.2.2)
      fun _ _ _ hv => hv.2.2.2.2.2.2.2.1)
      fun _ _ _ hv => (payload_of_raw hv.2.2.2.2.2.2.2.1
        (congrArg Version.payload hv.2.2.2.2.2.2.2.2.2)).2)
      fun _ _ _ hv => hv.2.2.2.2.2.2.2.1
  refine h.congr (fun v => ?_) fun v _ => ?_
  · rw [eq_mkOpen_iff]
    simp only [Encodable, WellTyped, encodedSize, not_lt, payloadLen]
    obtain ⟨k, t, n, e, w, c, _ | b⟩ := v
    · simp only [Option.map_none, Option.getD_none, if_true, List.length_nil]
      have hs : payloadNullSentinel < 2 ^ 32 := by decide
      have hzero : (0 : ℕ) < 2 ^ 32 := by decide
      tauto
    · simp only [Option.map_some, Option.getD_some]
      by_cases hb : b.length = payloadNullSentinel
      · -- a payload of that length is past the ceiling
        have hbig : maxVersionFrameLen < b.length := by rw [hb]; decide
        simp only [hb, if_true, reduceCtorEq, false_and, and_false, false_iff]
        rintro ⟨⟨-, -, -, hsize⟩, -⟩
        omega
      · simp only [hb, if_false, true_and]
        tauto
  · simp only [frame, List.append_nil]

end Version

/-! ### Redo sets -/

namespace Redo

open Cursor (Exact)

/-- What the types of the fields promise. -/
def WellTyped : Redo → Prop
  | .insert v => v.WellTyped
  | .close c => c.WellTyped
  | .retract c => c.WellTyped

instance (r : Redo) : Decidable r.WellTyped := by
  cases r
  · exact inferInstanceAs (Decidable (Version.WellTyped _))
  · exact inferInstanceAs (Decidable (Close.WellTyped _))
  · exact inferInstanceAs (Decidable (Close.WellTyped _))

/-- An entry of a redo record: a tag, then the frame. -/
def frame : Redo → Bytes
  | .insert v => 0 :: v.frame
  | .close c => 1 :: c.frame
  | .retract c => 2 :: c.frame

/-- An entry of a redo record, if it is small enough. -/
def encode : Redo → Except DmlError Bytes
  | .insert v => match v.encode with
    | .error e => .error (.delta e)
    | .ok bytes => .ok (0 :: bytes)
  | .close c => match c.encode with
    | .error e => .error (.validity e)
    | .ok bytes => .ok (1 :: bytes)
  | .retract c => match c.encode with
    | .error e => .error (.validity e)
    | .ok bytes => .ok (2 :: bytes)

/-- An entry off the front of some bytes; the tag says which frame follows. -/
def decode : FrameCursor Redo
  | [] => .error (.delta "unknown redo tag byte")
  | tag :: body =>
    if tag = 0 then (do let v ← Version.decode; pure (.insert v) : FrameCursor Redo) body
    else if tag = 1 then (do let c ← Close.decode; pure (.close c) : FrameCursor Redo) body
    else if tag = 2 then (do let c ← Close.decode; pure (.retract c) : FrameCursor Redo) body
    else .error (.delta "unknown redo tag byte")

theorem frame_ne_nil (r : Redo) : r.frame ≠ [] := by cases r <;> exact List.cons_ne_nil _ _

theorem encode_eq_ok {r : Redo} {bytes : Bytes} :
    r.encode = .ok bytes ↔ r.Encodable ∧ bytes = r.frame := by
  cases r with
  | insert v =>
    by_cases h : v.Encodable <;>
      simp [encode, Version.encode, Version.checkEncodable, Encodable, frame, h, eq_comm]
  | close c =>
    by_cases h : c.Encodable <;>
      simp [encode, Close.encode, Close.checkEncodable, Encodable, frame, h, eq_comm]
  | retract c =>
    by_cases h : c.Encodable <;>
      simp [encode, Close.encode, Close.checkEncodable, Encodable, frame, h, eq_comm]

/-- **The codec of an entry is exact.** -/
theorem exact_decode : Exact decode frame fun r => r.Encodable ∧ r.WellTyped := by
  intro l r rest
  cases l with
  | nil =>
    refine ⟨nofun, fun h => ?_⟩
    exact absurd (List.append_eq_nil_iff.1 h.2.symm).1 r.frame_ne_nil
  | cons tag body =>
    simp only [decode]
    split_ifs with h0 h1 h2
    · subst h0
      rw [Cursor.bind_pure_eq_ok]
      cases r <;> simp [Version.exact_decode _ _ _, frame, Encodable, WellTyped]
    · subst h1
      rw [Cursor.bind_pure_eq_ok]
      cases r <;> simp [Close.exact_decode _ _ _, frame, Encodable, WellTyped]
    · subst h2
      rw [Cursor.bind_pure_eq_ok]
      cases r <;> simp [Close.exact_decode _ _ _, frame, Encodable, WellTyped]
    · cases r <;> simp [frame, h0, h1, h2]

end Redo

/-- The bytes of a redo set, or why it cannot be encoded. -/
def encodeRedoBytes : List Redo → Except DmlError Bytes
  | [] => .ok []
  | r :: rs => match r.encode with
    | .error e => .error e
    | .ok bytes => match encodeRedoBytes rs with
      | .error e => .error e
      | .ok rest => .ok (bytes ++ rest)

/-- A redo set, read until the record ends. -/
def decodeRedo (bytes : Bytes) : Except RedoCorrupt (List Redo) := Redo.decode.all bytes

theorem encodeRedoBytes_eq_ok {redos : List Redo} {bytes : Bytes} :
    encodeRedoBytes redos = .ok bytes ↔
      (∀ r ∈ redos, r.Encodable) ∧ bytes = redos.flatMap Redo.frame := by
  induction redos generalizing bytes with
  | nil => simp [encodeRedoBytes, eq_comm]
  | cons r rs ih =>
    rw [encodeRedoBytes, List.forall_mem_cons, List.flatMap_cons]
    constructor
    · intro h
      split at h
      · cases h
      · rename_i head hhead
        obtain ⟨hr, rfl⟩ := Redo.encode_eq_ok.1 hhead
        split at h
        · cases h
        · rename_i rest hrest
          obtain ⟨hrs, rfl⟩ := ih.1 hrest
          cases h
          exact ⟨⟨hr, hrs⟩, rfl⟩
    · rintro ⟨⟨hr, hrs⟩, rfl⟩
      rw [Redo.encode_eq_ok.2 ⟨hr, rfl⟩]
      simp only [ih.2 ⟨hrs, rfl⟩]

/-- **A redo set is read back, and nothing else is accepted.** -/
theorem decodeRedo_eq_ok {bytes : Bytes} {redos : List Redo} :
    decodeRedo bytes = .ok redos ↔
      (∀ r ∈ redos, r.WellTyped) ∧ encodeRedoBytes redos = .ok bytes := by
  rw [decodeRedo, Redo.exact_decode.all_eq_ok fun r _ => r.frame_ne_nil, encodeRedoBytes_eq_ok,
    forall₂_and]
  tauto

/-- The length the log accounts for is that of the bytes. -/
theorem encodeRedo_eq_length (redos : List Redo) :
    encodeRedo redos = (encodeRedoBytes redos).map List.length := by
  have hentry : ∀ r : Redo, r.encodedLen = r.encode.map List.length := by
    intro r
    cases r with
    | insert v =>
      by_cases h : v.Encodable <;> simp [Redo.encodedLen, Redo.encode, Version.encode,
        Version.checkEncodable, h, Except.map, Version.length_frame, Nat.add_comm]
    | close c =>
      by_cases h : c.Encodable <;> simp [Redo.encodedLen, Redo.encode, Close.encode,
        Close.checkEncodable, h, Except.map, Close.length_frame, Nat.add_comm]
    | retract c =>
      by_cases h : c.Encodable <;> simp [Redo.encodedLen, Redo.encode, Close.encode,
        Close.checkEncodable, h, Except.map, Close.length_frame, Nat.add_comm]
  induction redos with
  | nil => rfl
  | cons r rs ih =>
    rw [encodeRedo, encodeRedoBytes, hentry, ih]
    cases r.encode with
    | error e => rfl
    | ok bytes =>
      cases encodeRedoBytes rs with
      | error e => rfl
      | ok rest => simp [Except.map]

/-! ### Records -/

/-- The first byte of a leg of a transaction: no tag of an entry. -/
def twoPhaseRecordTag : Fin 256 := 255

/-- A redo record, of a single table or of a leg of a transaction. -/
def encodeRecord (txnId : Option TxnId) (redos : List Redo) : Except DmlError Bytes :=
  match encodeRedoBytes redos with
  | .error e => .error e
  | .ok bytes => match txnId with
    | none => .ok bytes
    | some id => .ok (twoPhaseRecordTag :: (leBytes 8 id ++ bytes))

/-- The transaction of a record, if it is a leg of one, and the bytes of its entries. -/
def splitRecord : Bytes → Except RedoCorrupt (Option TxnId × Bytes)
  | [] => .ok (none, [])
  | tag :: rest =>
    if tag = twoPhaseRecordTag then
      if rest.length < 8 then
        .error (.delta "two-phase redo record truncated before its transaction id")
      else .ok (some (leNat (rest.take 8)), rest.drop 8)
    else .ok (none, tag :: rest)

/-- A redo record, as recovery reads it. -/
def decodeRecord (bytes : Bytes) : Except RedoCorrupt (Option TxnId × List Redo) :=
  match splitRecord bytes with
  | .error e => .error e
  | .ok (txnId, rest) => match decodeRedo rest with
    | .error e => .error e
    | .ok redos => .ok (txnId, redos)

theorem splitRecord_eq_plain {bytes rest : Bytes} :
    splitRecord bytes = .ok (none, rest) ↔ bytes.head? ≠ some twoPhaseRecordTag ∧ rest = bytes := by
  cases bytes with
  | nil => simp [splitRecord, eq_comm]
  | cons tag body =>
    simp only [splitRecord]
    split_ifs with htag hlen <;> simp [htag, eq_comm]

theorem splitRecord_eq_leg {bytes rest : Bytes} {id : TxnId} :
    splitRecord bytes = .ok (some id, rest) ↔
      id < 2 ^ 64 ∧ bytes = twoPhaseRecordTag :: (leBytes 8 id ++ rest) := by
  cases bytes with
  | nil => simp [splitRecord]
  | cons tag body =>
    have hcut := FrameCursor.exact_u64 (.delta "") body id rest
    have hread : FrameCursor.u64 (.delta "") body =
        if body.length < 8 then .error (.delta "")
        else .ok (leNat (body.take 8), body.drop 8) := by
      by_cases h : body.length < 8
      · simp [FrameCursor.u64, Cursor.take, h, bind, StateT.bind, Except.bind]
      · simp [FrameCursor.u64, Cursor.take, h, bind, StateT.bind, Except.bind, pure, StateT.pure,
          Except.pure]
    rw [hread] at hcut
    simp only [splitRecord]
    by_cases htag : tag = twoPhaseRecordTag
    · subst htag
      rw [List.cons.injEq, and_iff_right rfl, ← hcut, if_pos rfl]
      split_ifs <;> simp
    · rw [if_neg htag]
      simp [htag]

theorem head?_frames_ne (redos : List Redo) :
    (redos.flatMap Redo.frame).head? ≠ some twoPhaseRecordTag := by
  cases redos with
  | nil => nofun
  | cons r rs => cases r <;> simp [Redo.frame, twoPhaseRecordTag]

/-- **A record is read back, and nothing else is accepted.** -/
theorem decodeRecord_eq_ok {bytes : Bytes} {txnId : Option TxnId} {redos : List Redo} :
    decodeRecord bytes = .ok (txnId, redos) ↔
      (∀ id ∈ txnId, id < 2 ^ 64) ∧ (∀ r ∈ redos, r.WellTyped) ∧
        encodeRecord txnId redos = .ok bytes := by
  have hparts : decodeRecord bytes = .ok (txnId, redos) ↔
      ∃ rest, splitRecord bytes = .ok (txnId, rest) ∧ decodeRedo rest = .ok redos := by
    unfold decodeRecord
    constructor
    · intro h
      split at h
      · cases h
      · rename_i id rest hsplit
        split at h
        · cases h
        · rename_i rs hrs
          cases h
          exact ⟨rest, hsplit, hrs⟩
    · rintro ⟨rest, hsplit, hrs⟩
      simp only [hsplit, hrs]
  have hwhole : ∀ b, encodeRecord txnId redos = .ok b ↔ ∃ rest, encodeRedoBytes redos = .ok rest ∧
      b = txnId.elim rest fun id => twoPhaseRecordTag :: (leBytes 8 id ++ rest) := by
    intro b
    unfold encodeRecord
    cases encodeRedoBytes redos <;> cases txnId <;> simp [eq_comm]
  rw [hparts, hwhole]
  simp only [decodeRedo_eq_ok]
  cases txnId with
  | none =>
    simp only [splitRecord_eq_plain, Option.elim_none]
    constructor
    · rintro ⟨rest, ⟨-, rfl⟩, htyped, henc⟩
      exact ⟨nofun, htyped, rest, henc, rfl⟩
    · rintro ⟨-, htyped, rest, henc, rfl⟩
      refine ⟨bytes, ⟨?_, rfl⟩, htyped, henc⟩
      rw [(encodeRedoBytes_eq_ok.1 henc).2]
      exact head?_frames_ne redos
  | some id =>
    simp only [splitRecord_eq_leg, Option.elim_some, Option.mem_some_iff, forall_eq']
    constructor
    · rintro ⟨rest, ⟨hid, rfl⟩, htyped, henc⟩
      exact ⟨hid, htyped, rest, henc, rfl⟩
    · rintro ⟨hid, htyped, rest, henc, rfl⟩
      exact ⟨rest, ⟨hid, rfl⟩, htyped, henc⟩

/-- **The codec of redo records.**  A record that is written reads back as its transaction and its
redo set, so that no two records share their bytes; a cut of the entries is accepted only between
two of them, as those before the cut; and what is read encodes to the bytes it was read from. -/
theorem redo_codec_exact :
    (∀ (txnId : Option TxnId) (redos : List Redo) (bytes : Bytes), (∀ id ∈ txnId, id < 2 ^ 64) →
      (∀ r ∈ redos, r.WellTyped) → encodeRecord txnId redos = .ok bytes →
        decodeRecord bytes = .ok (txnId, redos) ∧
        ∀ (txnId' : Option TxnId) (redos' : List Redo), (∀ id ∈ txnId', id < 2 ^ 64) →
          (∀ r ∈ redos', r.WellTyped) → encodeRecord txnId' redos' = .ok bytes →
            txnId' = txnId ∧ redos' = redos) ∧
    (∀ (redos : List Redo) (bytes cut : Bytes), (∀ r ∈ redos, r.WellTyped) →
      encodeRedoBytes redos = .ok bytes → cut <+: bytes →
        ∀ before, decodeRedo cut = .ok before ↔
          before <+: redos ∧ encodeRedoBytes before = .ok cut) ∧
    ∀ (bytes : Bytes) (txnId : Option TxnId) (redos : List Redo),
      decodeRecord bytes = .ok (txnId, redos) → encodeRecord txnId redos = .ok bytes := by
  refine ⟨fun txnId redos bytes hid htyped henc => ?_,
    fun redos bytes cut htyped henc hcut before =>
    ?_, fun bytes txnId redos hdec => (decodeRecord_eq_ok.1 hdec).2.2⟩
  · have hdec := decodeRecord_eq_ok.2 ⟨hid, htyped, henc⟩
    refine ⟨hdec, fun txnId' redos' hid' htyped' henc' => ?_⟩
    rw [decodeRecord_eq_ok.2 ⟨hid', htyped', henc'⟩] at hdec
    cases hdec
    exact ⟨rfl, rfl⟩
  · obtain ⟨hsmall, rfl⟩ := encodeRedoBytes_eq_ok.1 henc
    rw [decodeRedo, Redo.exact_decode.all_of_cut (fun r _ => r.frame_ne_nil)
      (fun r hr => ⟨hsmall r hr, htyped r hr⟩) hcut, encodeRedoBytes_eq_ok]
    refine and_congr_right fun hbefore => ?_
    exact (and_iff_right fun r hr => hsmall r (hbefore.subset hr)).symm

/-- A close of the version of key `k` at 10, and the version that supersedes it. -/
def sampleRedos : List Redo :=
  [.close ⟨[107], 10, 7, 20, ⟨2, 20, [98]⟩⟩,
    .insert (Version.mkOpen [107] 20 8 ⟨2, 20, [98]⟩ (some [118]))]

/-- A leg of transaction 2 reads back. -/
theorem redo_codec_sample : ∃ bytes, encodeRecord (some 2) sampleRedos = .ok bytes ∧
    decodeRecord bytes = .ok (some 2, sampleRedos) := by
  refine ⟨_, rfl, ?_⟩
  exact (redo_codec_exact.1 (some 2) sampleRedos _ (by decide) (by decide) rfl).1

end SteleDb
