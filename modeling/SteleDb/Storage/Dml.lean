import SteleDb.Storage.ValidTime

/-!
# The logged write path

Every write of a table goes to its write-ahead log as a redo record before, or for a transaction
after, it is staged in the tiers.  A record carries the redo set of one write or of a whole
transaction; a *two-phase* record is tagged with its transaction and counts only once that
transaction's commit record is durable.

The log is kept as the list of its frames, and a log position is the number of frames before it;
the byte layout of a frame enters only through its length.  A crash in the middle of an append
leaves a *torn* frame; the log is reopened behind it.
-/

namespace SteleDb

/-! ### The write-ahead log -/

/-- A frame of the log. -/
inductive WalRecord where
  /-- A record: a redo set, with the transaction if it is two-phase. -/
  | whole (txnId : Option TxnId) (redos : List Redo)
  /-- What is left of a record that was written in part: it does not check. -/
  | torn
  deriving DecidableEq, Repr

/-- The redo set of a frame; a torn one has none. -/
def WalRecord.redos : WalRecord → List Redo
  | .whole _ redos => redos
  | .torn => []

@[simp] theorem WalRecord.redos_whole (txnId : Option TxnId) (redos : List Redo) :
    (WalRecord.whole txnId redos).redos = redos := rfl

@[simp] theorem WalRecord.redos_torn : WalRecord.torn.redos = [] := rfl

/-- Errors of the log. -/
inductive WalError where
  /-- The record is larger than 16 MiB. -/
  | payloadTooLarge (size : ℕ)
  /-- An earlier fsync failed or an append tore. -/
  | poisoned
  /-- The disk refused the operation. -/
  | io
  deriving DecidableEq, Repr

/-- Ceiling of a record: 16 MiB. -/
def maxPayloadLen : ℕ := 16 * 1024 * 1024

/-- Header of a log record. -/
def walHeaderLen : ℕ := 8

/-- The log of one table. -/
structure Wal where
  /-- Size at which a log file is closed. -/
  segmentSizeBytes : ℕ := 64 * 1024 * 1024
  /-- The frames, oldest first. -/
  records : List WalRecord := []
  /-- Bytes in the current log file. -/
  fileBytes : ℕ := 0
  /-- Number of frames covered by an fsync. -/
  durableEnd : ℕ := 0
  /-- Further writes are refused. -/
  poisoned : Bool := false
  /-- What the disk does with the next appends. -/
  appendFaults : Faults := []
  /-- What the disk does with the next fsyncs. -/
  syncFaults : Faults := []
  deriving DecidableEq, Repr

namespace Wal

/-- fsync the log; a failure poisons it. -/
def tick (w : Wal) : Wal × Except WalError Unit :=
  if w.poisoned then (w, .error .poisoned)
  else match w.syncFaults.next with
    | .done => ({ w with syncFaults := w.syncFaults.tail, durableEnd := w.records.length }, .ok ())
    | _ => ({ w with syncFaults := w.syncFaults.tail, poisoned := true }, .error .io)

/-- Close the current log file and start the next. -/
def rotate (w : Wal) : Wal × Except WalError Unit :=
  match w.tick with
  | (w, .ok ()) => ({ w with fileBytes := 0 }, .ok ())
  | (w, .error e) => (w, .error e)

/-- Write a record of `len` bytes to the current file.  A write that lands in part poisons the
log; what landed is found when the log is next opened. -/
def appendRecord (w : Wal) (r : WalRecord) (len : ℕ) : Wal × Except WalError Unit :=
  match w.appendFaults.next with
  | .done => ({ w with appendFaults := w.appendFaults.tail, records := w.records ++ [r]
                       fileBytes := w.fileBytes + (walHeaderLen + len) }, .ok ())
  | .failed => ({ w with appendFaults := w.appendFaults.tail }, .error .io)
  | .torn => ({ w with appendFaults := w.appendFaults.tail, poisoned := true }, .error .io)

/-- Append a record of `len` bytes. -/
def append (w : Wal) (r : WalRecord) (len : ℕ) : Wal × Except WalError Unit :=
  if maxPayloadLen < len then (w, .error (.payloadTooLarge len))
  else if w.poisoned then (w, .error .poisoned)
  else if w.segmentSizeBytes < w.fileBytes + (walHeaderLen + len) ∧ 0 < w.fileBytes then
    match w.rotate with
    | (w, .ok ()) => w.appendRecord r len
    | (w, .error e) => (w, .error e)
  else w.appendRecord r len

end Wal

/-! ### Redo records -/

/-- Errors of the logged write path. -/
inductive DmlError where
  /-- The write was refused. -/
  | resolve (e : ValidTimeError)
  /-- From the log. -/
  | wal (e : WalError)
  /-- A version frame is too large. -/
  | delta (e : DeltaError)
  /-- A close frame is too large. -/
  | validity (e : ValidityError)
  /-- A tier refused the redo set. -/
  | apply (e : SysTimeError)
  deriving DecidableEq, Repr

/-- Bytes of an entry of a redo record, its tag included, or why it cannot be encoded. -/
def Redo.encodedLen : Redo → Except DmlError ℕ
  | .insert v => match v.checkEncodable with
    | .ok () => .ok (1 + v.encodedSize)
    | .error e => .error (.delta e)
  | .close c => match c.checkEncodable with
    | .ok () => .ok (1 + c.encodedSize)
    | .error e => .error (.validity e)
  | .retract c => match c.checkEncodable with
    | .ok () => .ok (1 + c.encodedSize)
    | .error e => .error (.validity e)

/-- Bytes of an encoded redo set, or why it cannot be encoded. -/
def encodeRedo : List Redo → Except DmlError ℕ
  | [] => .ok 0
  | r :: rs => match r.encodedLen with
    | .error e => .error e
    | .ok n => match encodeRedo rs with
      | .error e => .error e
      | .ok m => .ok (n + m)

/-- Tag and transaction id of a two-phase record. -/
def twoPhaseHeaderLen : ℕ := 1 + 8

/-- Append a redo set as one record, tagged if it is a leg of a transaction. -/
def appendGroupRecord (w : Wal) (txnId : Option TxnId) (redos : List Redo) :
    Wal × Except DmlError Unit :=
  match encodeRedo redos with
  | .error e => (w, .error e)
  | .ok len =>
    match w.append (.whole txnId redos) (if txnId.isSome then twoPhaseHeaderLen + len else len) with
    | (w, .error e) => (w, .error (.wal e))
    | (w, .ok ()) => (w, .ok ())

/-! ### Writes -/

/-- What a write asserts. -/
inductive DmlOp where
  /-- Open the first version of the key. -/
  | insert (valid : Option ValidInterval) (payload : Option Bytes) (seq : Seq)
  /-- Supersede the live version of the key. -/
  | update (valid : Option ValidInterval) (payload : Option Bytes) (seq : Seq)
  /-- Close the live version of the key. -/
  | delete
  deriving DecidableEq

/-- A write, with the clock's reading. -/
structure DmlWrite where
  /-- The clock's reading. -/
  now : SystemTimeMicros
  /-- The key written. -/
  key : BusinessKey
  /-- The writing transaction. -/
  txnId : TxnId
  /-- The writing principal. -/
  principal : Bytes
  /-- What is written. -/
  op : DmlOp
  deriving DecidableEq

/-- The writer of one table. -/
structure DmlWriter where
  /-- The log. -/
  wal : Wal := {}
  /-- The commit stamper. -/
  writer : SysTimeWriter := {}
  /-- The table has a valid-time axis. -/
  validTime : Bool := false
  /-- Redo sets of the open transaction. -/
  group : Option (List Redo) := none
  /-- The open transaction is a bulk load. -/
  groupBulk : Bool := false

namespace DmlWriter

/-- Resolve a write into its redo set: frame the payload, then stage. -/
def stage (dw : DmlWriter) (t : Tiers) (sealedVersions : List Version) (w : DmlWrite) :
    SysTimeWriter × Except ValidTimeError (SystemTimeMicros × List Redo) :=
  let lift : SysTimeWriter × Except SysTimeError (SystemTimeMicros × List Redo) →
      SysTimeWriter × Except ValidTimeError (SystemTimeMicros × List Redo) :=
    fun r => (r.1, r.2.mapError .sysTime)
  match w.op with
  | .insert valid payload seq =>
    match framePayload dw.validTime valid payload with
    | .error e => (dw.writer, .error e)
    | .ok framed =>
      lift (dw.writer.stageInsert w.now t sealedVersions w.key framed seq w.txnId w.principal)
  | .update valid payload seq =>
    match framePayload dw.validTime valid payload with
    | .error e => (dw.writer, .error e)
    | .ok framed =>
      lift (dw.writer.stageUpdate w.now t sealedVersions w.key framed seq w.txnId w.principal)
  | .delete => lift (dw.writer.stageDelete w.now t sealedVersions w.key w.txnId w.principal)

/-- Log a redo set and stage it.  Inside a transaction the record is left to the commit: the redo
set is buffered, then applied, so that a failed apply can be undone too. -/
def logAndApply (dw : DmlWriter) (t : Tiers) (commit : SystemTimeMicros) (redos : List Redo) :
    DmlWriter × Tiers × Except DmlError SystemTimeMicros :=
  match dw.group with
  | some buffered =>
    let dw := { dw with group := some (buffered ++ redos) }
    match if dw.groupBulk then apply t redos else applyResident t redos with
    | (t, .error e) => (dw, t, .error (.apply e))
    | (t, .ok ()) => (dw, t, .ok commit)
  | none =>
    match appendGroupRecord dw.wal none redos with
    | (wal, .error e) => ({ dw with wal }, t, .error e)
    | (wal, .ok ()) =>
      match apply t redos with
      | (t, .error e) => ({ dw with wal }, t, .error (.apply e))
      | (t, .ok ()) => ({ dw with wal }, t, .ok commit)

/-- One insert, update or delete. -/
def write (dw : DmlWriter) (t : Tiers) (sealedVersions : List Version) (w : DmlWrite) :
    DmlWriter × Tiers × Except DmlError SystemTimeMicros :=
  match dw.stage t sealedVersions w with
  | (writer, .error e) => ({ dw with writer }, t, .error (.resolve e))
  | (writer, .ok (commit, redos)) => { dw with writer }.logAndApply t commit redos

/-- Start a transaction: writes are applied now and logged at its commit. -/
def beginGroup (dw : DmlWriter) : DmlWriter := { dw with group := some [], groupBulk := false }

/-- Start a bulk load: writes spill, and are logged chunk by chunk. -/
def beginBulkGroup (dw : DmlWriter) : DmlWriter := { dw with group := some [], groupBulk := true }

/-- Log the buffered chunk of a bulk load and fsync. -/
def commitBulkChunk (dw : DmlWriter) (txnId : TxnId) : DmlWriter × Except DmlError Unit :=
  let redos := dw.group.getD []
  let dw := { dw with group := some [] }
  if redos.isEmpty then (dw, .ok ())
  else match appendGroupRecord dw.wal (some txnId) redos with
    | (wal, .error e) => ({ dw with wal }, .error e)
    | (wal, .ok ()) =>
      match wal.tick with
      | (wal, .error e) => ({ dw with wal }, .error (.wal e))
      | (wal, .ok ()) => ({ dw with wal }, .ok ())

/-- End a bulk load whose chunks are logged. -/
def endBulkGroup (dw : DmlWriter) : DmlWriter := { dw with group := none, groupBulk := false }

/-- Log the open transaction as one record and fsync: plainly if it is of this table alone, tagged
if it is a leg of a transaction of several.  When the record does not reach the log, its writes are
undone; when only the fsync fails, they stay and the log is poisoned. -/
def finishGroup (dw : DmlWriter) (t : Tiers) (txnId : Option TxnId) :
    DmlWriter × Tiers × Except DmlError Unit :=
  let redos := dw.group.getD []
  let dw := { dw with group := none }
  if redos.isEmpty then (dw, t, .ok ())
  else match appendGroupRecord dw.wal txnId redos with
    | (wal, .error e) => ({ dw with wal }, undo t redos, .error e)
    | (wal, .ok ()) =>
      match wal.tick with
      | (wal, .error e) => ({ dw with wal }, t, .error (.wal e))
      | (wal, .ok ()) => ({ dw with wal }, t, .ok ())

/-- Take back the open transaction; a bulk load drops everything staged instead. -/
def abortGroup (dw : DmlWriter) (t : Tiers) : DmlWriter × Tiers :=
  let dw' := { dw with group := none, groupBulk := false }
  if dw.groupBulk then (dw', { t with delta := t.delta.discardStaged })
  else match dw.group with
    | some redos => (dw', undo t redos)
    | none => (dw', t)

end DmlWriter

/-! ### Replay -/

/-- The transactions whose two-phase records count. -/
inductive CommittedTxns where
  /-- All of them. -/
  | all
  /-- Those with a durable commit record. -/
  | only (txns : List TxnId)
  deriving DecidableEq, Repr

/-- Whether a two-phase record of the transaction counts. -/
def CommittedTxns.admits : CommittedTxns → TxnId → Bool
  | .all, _ => true
  | .only txns, txn => txns.contains txn

/-- Apply the records of a log that count, from position `at_` on.  A torn frame at the fence or
after it ends the log; before it, it is an error. -/
def recoverReplay (committed : CommittedTxns) (fence : ℕ) :
    ℕ → Tiers → List WalRecord → Tiers × Except DmlError Unit
  | _, t, [] => (t, .ok ())
  | at_, t, .torn :: _ => if fence ≤ at_ then (t, .ok ()) else (t, .error (.wal .io))
  | at_, t, .whole txnId redos :: rs =>
    if txnId.any fun txn => !committed.admits txn then recoverReplay committed fence (at_ + 1) t rs
    else match apply t redos with
      | (t, .error e) => (t, .error (.apply e))
      | (t, .ok ()) => recoverReplay committed fence (at_ + 1) t rs

end SteleDb
