import SteleDb.Session.Recover

/-!
# Transactions and the server

A transaction reads at one snapshot, under `READ COMMITTED` a new one for each statement, and
buffers its writes.  Each buffered write keeps the snapshot it was staged under, its *anchor*:
committing checks that no row of the buffer was written after its anchor, then applies the buffer
as one group.  While a transaction is open its snapshot is on lease, and the write index is pruned
below the oldest lease only.

The server is a session engine with the transactions open on it, of any number of connections, and
a log of the writes committed so far, which only the statements of properties look at.
-/

namespace SteleDb

/-! ### Transactions -/

/-- When a transaction takes its snapshots. -/
inductive IsolationLevel where
  /-- One, at its start. -/
  | repeatableRead
  /-- One for each statement. -/
  | readCommitted
  deriving DecidableEq, Repr

/-- An open transaction. -/
structure SessionTransaction where
  /-- The snapshot it reads at. -/
  snapshot : SystemTimeMicros
  /-- When it takes snapshots. -/
  isolation : IsolationLevel
  /-- The buffered writes with their anchors. -/
  staged : List (BoundDml × SystemTimeMicros) := []
  /-- The savepoints, innermost last, with the number of writes before them. -/
  savepoints : List (Name × ℕ) := []
  deriving DecidableEq

namespace SessionTransaction

variable (txn : SessionTransaction)

/-- Buffer the writes of a statement. -/
def stageAll (dmls : List BoundDml) : SessionTransaction :=
  { txn with staged := txn.staged ++ dmls.map fun dml => (dml, txn.snapshot) }

/-- `SAVEPOINT`. -/
def savepoint (name : Name) : SessionTransaction :=
  { txn with savepoints := txn.savepoints ++ [(name, txn.staged.length)] }

/-- The savepoints up to and including the last one of a name. -/
def savepointsUpTo (name : Name) : Option (List (Name × ℕ)) :=
  match txn.savepoints.reverse.dropWhile fun sp => sp.1 ≠ name with
  | [] => none
  | sps => some sps.reverse

/-- `ROLLBACK TO SAVEPOINT`: forget the writes staged after it. -/
def rollbackTo (name : Name) : SessionTransaction :=
  match txn.savepointsUpTo name with
  | none => txn
  | some sps =>
    { txn with staged := txn.staged.take (sps.getLast?.elim 0 Prod.snd), savepoints := sps }

/-- `RELEASE SAVEPOINT`: keep the writes staged after it. -/
def release (name : Name) : SessionTransaction :=
  match txn.savepointsUpTo name with
  | none => txn
  | some sps => { txn with savepoints := sps.dropLast }

end SessionTransaction

namespace SessionEngine

variable (s : SessionEngine)

/-- `BEGIN`. -/
def beginWithIsolation (isolation : IsolationLevel) : SessionEngine × SessionTransaction :=
  let (clock, snapshot) := s.clock.observe
  ({ s with clock, openSnapshots := snapshot ::ₘ s.openSnapshots }, { snapshot, isolation })

/-- Take a new snapshot and move the lease to it. -/
def repinSnapshot (txn : SessionTransaction) : SessionEngine × SessionTransaction :=
  let (clock, snapshot) := s.clock.observe
  ({ s with clock, openSnapshots := snapshot ::ₘ s.openSnapshots.erase txn.snapshot },
    { txn with snapshot })

/-- The start of a statement inside a transaction. -/
def startStatement (txn : SessionTransaction) : SessionEngine × SessionTransaction :=
  match txn.isolation with
  | .readCommitted => s.repinSnapshot txn
  | .repeatableRead => (s, txn)

/-- Bind the writes of a statement and buffer them. -/
def stageDml (txn : SessionTransaction) (dmls : List BoundDml) :
    SessionTransaction × Except SessionError Unit :=
  match s.refuseIfCommitPoisoned with
  | .error e => (txn, .error e)
  | .ok () =>
    match s.checkDml txn.snapshot dmls with
    | .error e => (txn, .error e)
    | .ok () => (txn.stageAll dmls, .ok ())

/-- A DML statement inside a transaction. -/
def executeDmlInTxn (txn : SessionTransaction) (dmls : List BoundDml) :
    SessionEngine × SessionTransaction × Except SessionError Unit :=
  let (s, txn) := s.startStatement txn
  let (txn, r) := s.stageDml txn dmls
  (s, txn, r)

/-- A command inside a transaction: it takes effect at once, and the transaction moves on to a
snapshot that sees it. -/
def executeCommandInTxn (txn : SessionTransaction) (c : Command) :
    SessionEngine × SessionTransaction × Except SessionError Unit :=
  let (s, txn) := s.startStatement txn
  match s.applyCommand c with
  | (s, .error e) => (s, txn, .error e)
  | (s, .ok ()) =>
    let (s, txn) := s.repinSnapshot txn
    (s, txn, .ok ())

/-- Give the transaction's lease back. -/
def dropLease (txn : SessionTransaction) : SessionEngine :=
  { s with openSnapshots := s.openSnapshots.erase txn.snapshot }

/-- A row of the buffer was written after its anchor. -/
def conflicts (txn : SessionTransaction) : Bool :=
  txn.staged.any fun w => s.writeIndex[w.1.row]?.any fun committedAt => w.2 < committedAt

/-- `COMMIT`. -/
def commit (txn : SessionTransaction) : SessionEngine × Except SessionError Unit :=
  match s.refuseIfCommitPoisoned with
  | .error e => (s.dropLease txn, .error e)
  | .ok () =>
    if s.conflicts txn then (s.dropLease txn, .error .conflict)
    else
      let (s, r) := s.runGroup (txn.staged.map Prod.fst)
      ((s.dropLease txn).pruneWriteIndex, r)

/-! ### When writes happen -/

/-- The rows that `applyGroup` writes, with their instants. -/
def groupStamps (txnId : TxnId) (principal : Bytes) :
    SessionEngine → List Name → List BoundDml → List (RowId × SystemTimeMicros)
  | _, _, [] => []
  | s, touched, dml :: dmls =>
    match s.touch touched dml.table with
    | .error _ => []
    | .ok (s, touched) =>
      match s.applyBoundDml dml txnId principal with
      | (_, .error _) => []
      | (s, .ok ()) => (dml.row, s.clock.current) :: groupStamps txnId principal s touched dmls

/-- The rows a group commit writes, with their instants. -/
def runGroupStamps (dmls : List BoundDml) : List (RowId × SystemTimeMicros) :=
  groupStamps s.nextTxn s.writePrincipal s.takeTxnId [] dmls

/-- The rows that `applyAll` writes, with their instants. -/
def allStamps (txnId : TxnId) (principal : Bytes) :
    SessionEngine → List BoundDml → List (RowId × SystemTimeMicros)
  | _, [] => []
  | s, dml :: dmls =>
    match s.applyBoundDml dml txnId principal with
    | (_, .error _) => []
    | (s, .ok ()) => (dml.row, s.clock.current) :: allStamps txnId principal s dmls

/-- The rows the chunks of a bulk load write, with their instants. -/
def chunkStamps (txnId : TxnId) (principal : Bytes) (table : Name) :
    SessionEngine → List (List (Option CopyRow)) → List (RowId × SystemTimeMicros)
  | _, [] => []
  | s, chunk :: chunks =>
    match chunk.mapM fun row => row with
    | none => []
    | some rows =>
      let dmls := rows.map (CopyRow.dml table)
      let applied := (applyAll txnId principal s dmls).1
      allStamps txnId principal s dmls ++ chunkStamps txnId principal table
        (applied.commitBulkChunk txnId table).1.pruneWriteIndex chunks

/-- The rows a bulk load writes, with their instants. -/
def bulkCopyStamps (table : Name) (rows : List (Option CopyRow)) :
    List (RowId × SystemTimeMicros) :=
  match s.tableMut table with
  | .error _ => []
  | .ok st =>
    chunkStamps s.nextTxn s.writePrincipal table
      (s.setEngine table st st.engine.flush.1.beginBulkGroup).takeTxnId
      (rows.toChunks bulkCopyChunkRows)

/-- The rows a `COPY` writes, with their instants. -/
def copyStamps (table : Name) (rows : List (Option CopyRow)) : List (RowId × SystemTimeMicros) :=
  if rows.length ≤ bulkCopyChunkRows then
    match rows.mapM fun row => row with
    | none => []
    | some rows => s.observe.runGroupStamps (rows.map (CopyRow.dml table))
  else s.observe.bulkCopyStamps table rows

end SessionEngine

/-! ### The server -/

/-- A session engine with the transactions open on it, and the writes committed so far. -/
structure Server where
  /-- The engine. -/
  engine : SessionEngine
  /-- The open transactions. -/
  txns : List SessionTransaction := []
  /-- The rows written by committed statements and transactions, with their instants. -/
  log : List (RowId × SystemTimeMicros) := []

/-- What a connection asks of the server, or what happens to it.  A number says which of the open
transactions is meant. -/
inductive Request where
  /-- `BEGIN`. -/
  | begin_ (isolation : IsolationLevel)
  /-- `SET TRANSACTION ISOLATION LEVEL`. -/
  | setIsolation (i : ℕ) (isolation : IsolationLevel)
  /-- DML inside a transaction. -/
  | stage (i : ℕ) (dmls : List BoundDml)
  /-- `COPY` inside a transaction, with every row bound. -/
  | copyStage (i : ℕ) (table : Name) (rows : List SessionEngine.CopyRow)
  /-- A read inside a transaction. -/
  | select (i : ℕ)
  /-- DDL or maintenance inside a transaction. -/
  | commandIn (i : ℕ) (c : SessionEngine.Command)
  /-- The front end moves a transaction to a new snapshot. -/
  | repin (i : ℕ)
  /-- `SAVEPOINT`. -/
  | savepoint (i : ℕ) (name : Name)
  /-- `ROLLBACK TO SAVEPOINT`. -/
  | rollbackTo (i : ℕ) (name : Name)
  /-- `RELEASE SAVEPOINT`. -/
  | release (i : ℕ) (name : Name)
  /-- `ROLLBACK`, or the connection goes away. -/
  | rollback (i : ℕ)
  /-- `COMMIT`. -/
  | commit (i : ℕ)
  /-- An auto-committed DML statement. -/
  | dml (stmt : SessionEngine.DmlStatement)
  /-- An auto-committed `COPY`. -/
  | copy (table : Name) (rows : List (Option SessionEngine.CopyRow))
  /-- DDL or maintenance outside a transaction. -/
  | command (c : SessionEngine.Command)
  /-- The requests that follow are another principal's. -/
  | setPrincipal (name : Name)
  /-- The disk will behave as said. -/
  | faults (f : DiskFaults)

namespace Server

/-- A server over an empty disk. -/
def opened (inner : ℕ → SystemTimeMicros) : Server := ⟨.opened inner, [], []⟩

/-- Log the writes of a statement that succeeded. -/
def logged (log : List (RowId × SystemTimeMicros)) (r : Except SessionError Unit)
    (stamps : List (RowId × SystemTimeMicros)) : List (RowId × SystemTimeMicros) :=
  match r with
  | .ok () => log ++ stamps
  | .error _ => log

/-- Serve one request. -/
def step (w : Server) : Request → Server × Except SessionError Unit
  | .begin_ isolation =>
    let (s, txn) := w.engine.beginWithIsolation isolation
    ({ w with engine := s, txns := w.txns ++ [txn] }, .ok ())
  | .setIsolation i isolation =>
    ({ w with txns := w.txns.modify i fun txn => { txn with isolation } }, .ok ())
  | .stage i dmls =>
    match w.txns[i]? with
    | none => (w, .ok ())
    | some txn =>
      let (s, txn, r) := w.engine.executeDmlInTxn txn dmls
      ({ w with engine := s, txns := w.txns.set i txn }, r)
  | .copyStage i table rows =>
    match w.txns[i]? with
    | none => (w, .ok ())
    | some txn =>
      match w.engine.authorizeCopy table with
      | .error e => (w, .error e)
      | .ok () =>
        let (txn, r) := w.engine.stageDml txn (rows.map (SessionEngine.CopyRow.dml table))
        ({ w with txns := w.txns.set i txn }, r)
  | .select i =>
    match w.txns[i]? with
    | none => (w, .ok ())
    | some txn =>
      let (s, txn) := w.engine.startStatement txn
      ({ w with engine := s, txns := w.txns.set i txn }, s.refuseIfCommitPoisoned)
  | .commandIn i c =>
    match w.txns[i]? with
    | none => (w, .ok ())
    | some txn =>
      let (s, txn, r) := w.engine.executeCommandInTxn txn c
      ({ w with engine := s, txns := w.txns.set i txn }, r)
  | .repin i =>
    match w.txns[i]? with
    | none => (w, .ok ())
    | some txn =>
      let (s, txn) := w.engine.repinSnapshot txn
      ({ w with engine := s, txns := w.txns.set i txn }, .ok ())
  | .savepoint i name => ({ w with txns := w.txns.modify i (·.savepoint name) }, .ok ())
  | .rollbackTo i name => ({ w with txns := w.txns.modify i (·.rollbackTo name) }, .ok ())
  | .release i name => ({ w with txns := w.txns.modify i (·.release name) }, .ok ())
  | .rollback i =>
    match w.txns[i]? with
    | none => (w, .ok ())
    | some txn => ({ w with engine := w.engine.dropLease txn, txns := w.txns.eraseIdx i }, .ok ())
  | .commit i =>
    match w.txns[i]? with
    | none => (w, .ok ())
    | some txn =>
      let (s, r) := w.engine.commit txn
      ({ engine := s, txns := w.txns.eraseIdx i
         log := logged w.log r (w.engine.runGroupStamps (txn.staged.map Prod.fst)) }, r)
  | .dml stmt =>
    let (s, r) := w.engine.executeDml stmt
    ({ w with engine := s
              log := logged w.log r (w.engine.observe.runGroupStamps stmt.writes) }, r)
  | .copy table rows =>
    let (s, r) := w.engine.copyApply table rows
    ({ w with engine := s, log := logged w.log r (w.engine.copyStamps table rows) }, r)
  | .command c =>
    let (s, r) := w.engine.executeCommand c
    ({ w with engine := s }, r)
  | .setPrincipal name => ({ w with engine := { w.engine with writePrincipal := name } }, .ok ())
  | .faults f => ({ w with engine := w.engine.withFaults f }, .ok ())

/-- Serve requests in order. -/
def run (w : Server) (requests : List Request) : Server :=
  requests.foldl (fun w r => (w.step r).1) w

@[simp] theorem run_nil (w : Server) : w.run [] = w := rfl

theorem run_append (w : Server) (requests : List Request) (r : Request) :
    w.run (requests ++ [r]) = ((w.run requests).step r).1 := by
  simp [run]

end Server

end SteleDb
