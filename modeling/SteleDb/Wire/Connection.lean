import SteleDb.Lib.Runs
import SteleDb.Wire.Router

/-!
# A connection of the wire protocol

One connection, as the message loop serves it: the transaction block it has open, the instants it
has pinned its reads to, its prepared statements and portals, the latch that drops messages until
the next `Sync`, and the `COPY` it is in the middle of.  The engine is shared with the other
connections and locked for one statement at a time, so the statements of a simple query are steps
of their own (`advance`), and another connection may come in between them.

A message is decoded and its text parsed before it reaches the handlers; both depend on nothing but
the message, so messages carry their statements.  Row caps, formats and tags are as the source has
them; the bytes of a row in a format and the text of an error are left out.
-/

namespace SteleDb

/-- Set the principal that the next statement is judged under and that its writes are stamped
with. -/
def SessionEngine.setPrincipal (s : SessionEngine) (principal : Name) : SessionEngine :=
  { s with writePrincipal := principal }

namespace Wire

/-! ### Statements of a connection -/

/-- The transaction state of a connection. -/
inductive ConnTxn where
  /-- Every statement commits by itself. -/
  | idle
  /-- In a block. -/
  | active (txn : SessionTransaction)
  /-- In a block that met an error. -/
  | failed (txn : SessionTransaction)
  deriving DecidableEq

namespace ConnTxn

/-- The status that `ReadyForQuery` reports. -/
def statusByte : ConnTxn → Char
  | .idle => 'I'
  | .active _ => 'T'
  | .failed _ => 'E'

/-- Abort the block, if one is open. -/
def markFailed : ConnTxn → ConnTxn
  | .active txn => .failed txn
  | other => other

end ConnTxn

/-- An axis that reads can be pinned on. -/
inductive TimeDimension where
  /-- System time. -/
  | system
  /-- Valid time. -/
  | valid
  deriving DecidableEq, Repr

/-- Pin one axis. -/
def SessionTime.set (t : SessionTime) (micros : SystemTimeMicros) : TimeDimension → SessionTime
  | .system => { t with system := some micros }
  | .valid => { t with valid := some micros }

/-- Unpin one axis. -/
def SessionTime.reset (t : SessionTime) : TimeDimension → SessionTime
  | .system => { t with system := none }
  | .valid => { t with valid := none }

/-- `SET` and `RESET`. -/
inductive SessionCommand where
  /-- Pin an axis to what the operand stands for now. -/
  | setTime (dimension : TimeDimension)
      (resolve : SystemTimeMicros → Except StatementError SystemTimeMicros)
  /-- Unpin an axis. -/
  | resetTime (dimension : TimeDimension)
  /-- Unpin both. -/
  | resetAll
  /-- Any other variable, which is ignored. -/
  | tolerated (isReset : Bool)

/-- Transaction control; an isolation level may be one that is not offered. -/
inductive TxnControl where
  /-- `BEGIN`. -/
  | begin_ (isolation : Except Unit (Option IsolationLevel))
  /-- `SET TRANSACTION`. -/
  | setTransaction (isolation : Except Unit (Option IsolationLevel))
  /-- `COMMIT`. -/
  | commit
  /-- `ROLLBACK`. -/
  | rollback
  /-- `SAVEPOINT`. -/
  | savepoint (name : Name)
  /-- `RELEASE SAVEPOINT`. -/
  | release (name : Name)
  /-- `ROLLBACK TO SAVEPOINT`. -/
  | rollbackTo (name : Name)

/-- A statement as the connection routes it. -/
inductive Statement where
  /-- Transaction control. -/
  | control (c : TxnControl)
  /-- `SET` or `RESET`. -/
  | session (cmd : SessionCommand)
  /-- `COPY … FROM STDIN`. -/
  | copyIn (c : CopyStatement)
  /-- A query of `pg_catalog`, answered from the live schemas. -/
  | introspection (columns : ℕ) (rows : Catalog → List Name → SystemTimeMicros → List Row)
  /-- A `SELECT` of constants. -/
  | constant (row : Row)
  /-- A statement for the engine. -/
  | engine (stmt : EngineStatement)

/-- What the engine makes of a statement; it has no route for those that the connection serves. -/
def Statement.toEngine : Statement → EngineStatement
  | .engine stmt => stmt
  | _ => .body .other

/-- It returns rows, as far as its syntax tells. -/
def Statement.returnsRows : Statement → Bool
  | .introspection .. => true
  | .constant _ => true
  | .engine (.body (.query _)) => true
  | .engine (.explain ..) => true
  | _ => false

/-- The row cap of simple queries. -/
def EngineStatement.capUnboundedSelect : EngineStatement → EngineStatement
  | .body (.query q) => .body (.query { q with rows := q.cappedRows })
  | stmt => stmt

/-! ### Messages and replies -/

/-- A statement with placeholders. -/
structure Template where
  /-- The number of its placeholders. -/
  placeholderCount : ℕ
  /-- The statement before it is bound, which can be described but not run. -/
  unbound : Statement
  /-- The statement with the parameters in place, each decoded by its type and its format; `none`
  if one does not decode. -/
  substitute : List (ℕ × Bool × Option Bytes) → Option Statement

/-- A prepared statement. -/
structure Prepared where
  /-- The statement; `none` for an empty text. -/
  stmt : Option Template
  /-- The types declared for its parameters. -/
  paramOids : List ℕ

/-- The tag of a statement that is done. -/
inductive Tag where
  /-- One word or two. -/
  | text (tag : String)
  /-- A read, with its number of rows. -/
  | select (n : ℕ)
  /-- A write. -/
  | dml
  /-- DDL or maintenance. -/
  | ddl
  /-- A `COPY`. -/
  | copy
  deriving DecidableEq, Repr

/-- The outcome of a portal's statement, kept for streaming. -/
inductive Executed where
  /-- Rows, of which the first `sent` were sent. -/
  | rows (columns : ℕ) (rows : List Row) (sent : ℕ)
  /-- Only a tag. -/
  | completed (tag : Tag)
  deriving DecidableEq, Repr

/-- The number of columns of an outcome. -/
def Executed.columnCount : Executed → ℕ
  | .rows columns _ _ => columns
  | .completed _ => 0

/-- A bound portal. -/
structure PortalEntry where
  /-- The statement; `none` for an empty text. -/
  stmt : Option Statement
  /-- Its outcome, once it ran. -/
  executed : Option Executed := none
  /-- The formats asked for, by column. -/
  resultFormats : List ℤ

/-- The text of a simple query. -/
inductive QueryText where
  /-- Without its terminator. -/
  | unterminated
  /-- It does not parse. -/
  | syntaxError
  /-- Its statements. -/
  | statements (stmts : List Statement)

/-- A message of the client. -/
inductive Message where
  /-- `Query`. -/
  | query (q : QueryText)
  /-- `Parse`; the text may not parse, or hold several statements. -/
  | parse (name : Name) (query : Except Unit (Option Template)) (paramOids : List ℕ)
  /-- `Bind`. -/
  | bind (portal statement : Name) (paramFormats : List ℤ) (params : List (Option Bytes))
      (resultFormats : List ℤ)
  /-- `Describe` of a prepared statement. -/
  | describeStatement (name : Name)
  /-- `Describe` of a portal. -/
  | describePortal (name : Name)
  /-- `Execute`. -/
  | execute (portal : Name) (maxRows : ℤ)
  /-- `Close` of a prepared statement. -/
  | closeStatement (name : Name)
  /-- `Close` of a portal. -/
  | closePortal (name : Name)
  /-- `Flush`. -/
  | flush
  /-- `Sync`. -/
  | sync
  /-- `CopyData`. -/
  | copyData (data : Bytes)
  /-- `CopyDone`. -/
  | copyDone
  /-- `CopyFail`. -/
  | copyFail
  /-- `Terminate`, or the end of the stream. -/
  | terminate
  /-- A message of another type, or one that does not decode. -/
  | unsupported

/-- The reason of an `ErrorResponse`. -/
inductive WireError where
  /-- The engine refused the statement. -/
  | engine (e : StatementError)
  /-- The text does not parse. -/
  | badText
  /-- The block is aborted. -/
  | inFailedTransaction
  /-- No block is open. -/
  | noActiveTransaction
  /-- There is no such savepoint. -/
  | invalidSavepoint (name : Name)
  /-- The isolation level is not offered. -/
  | isolationNotSupported
  /-- The name is taken. -/
  | duplicatePstatement (name : Name)
  /-- There is no such prepared statement. -/
  | invalidPstatementName (name : Name)
  /-- There is no such portal. -/
  | invalidCursorName (name : Name)
  /-- Formats or parameters do not fit. -/
  | protocolViolation
  /-- A parameter does not decode. -/
  | invalidParameter
  /-- The data of a `COPY` is too large. -/
  | programLimitExceeded
  /-- The client gave the `COPY` up. -/
  | queryCanceled
  /-- The data of a `COPY` does not split into rows. -/
  | invalidTextRepresentation
  deriving DecidableEq, Repr

/-- A message of the server. -/
inductive Reply where
  /-- `ErrorResponse`. -/
  | error (e : WireError)
  /-- `ReadyForQuery`. -/
  | readyForQuery (status : Char)
  /-- `CommandComplete`. -/
  | commandComplete (tag : Tag)
  /-- `RowDescription`. -/
  | rowDescription (columns : ℕ)
  /-- `DataRow`. -/
  | dataRow (row : Row)
  /-- `ParameterDescription`. -/
  | parameterDescription (oids : List ℕ)
  /-- `EmptyQueryResponse`. -/
  | emptyQueryResponse
  /-- `ParseComplete`. -/
  | parseComplete
  /-- `BindComplete`. -/
  | bindComplete
  /-- `CloseComplete`. -/
  | closeComplete
  /-- `NoData`. -/
  | noData
  /-- `PortalSuspended`. -/
  | portalSuspended
  /-- `CopyInResponse`. -/
  | copyInResponse
  deriving DecidableEq, Repr

/-- A `COPY` whose rows are being sent. -/
structure CopyIn where
  /-- The statement. -/
  stmt : CopyStatement
  /-- The bytes so far. -/
  data : Bytes := []

/-- A connection. -/
structure Conn where
  /-- Who it is. -/
  principal : Name
  /-- Its transaction state. -/
  txn : ConnTxn := .idle
  /-- The instants its reads are pinned to. -/
  time : SessionTime := {}
  /-- Its prepared statements. -/
  prepared : OrdMap Name Prepared := ∅
  /-- Its portals. -/
  portals : OrdMap Name PortalEntry := ∅
  /-- Messages are dropped until the next `Sync`. -/
  skipUntilSync : Bool := false
  /-- The statements of the simple query being served that are still to run. -/
  batch : Option (List Statement) := none
  /-- The `COPY` being served. -/
  copy : Option CopyIn := none
  /-- The connection is over. -/
  closed : Bool := false

/-- What a step of a connection leaves behind. -/
structure Served where
  /-- The engine. -/
  engine : SessionEngine
  /-- The connection. -/
  conn : Conn
  /-- What was written to the client. -/
  replies : List Reply

namespace Conn

variable (c : Conn) (s : SessionEngine)

/-- The reply to a statement that only has a tag of its own. -/
def complete (tag : String) : Reply := .commandComplete (.text tag)

/-! ### Statements of a simple query

What the statements of a simple query do.  A statement that met an error empties the batch. -/

/-- A statement of a simple query is refused; the block stays as it is. -/
def stop (e : WireError) : Served := ⟨s, { c with batch := some [] }, [.error e]⟩

/-- A statement of a simple query met an error. -/
def abort (e : WireError) : Served :=
  ⟨s, { c with txn := c.txn.markFailed, batch := some [] }, [.error e]⟩

/-- `BEGIN`; inside a block it does nothing. -/
def runBegin (isolation : Except Unit (Option IsolationLevel)) : Served :=
  match c.txn with
  | .idle =>
    match isolation with
    | .error () => c.abort s .isolationNotSupported
    | .ok level =>
      let (s, txn) := s.beginWithIsolation (level.getD .repeatableRead)
      ⟨s, { c with txn := .active txn }, [complete "BEGIN"]⟩
  | _ => ⟨s, c, [complete "BEGIN"]⟩

/-- `SET TRANSACTION`. -/
def runSetTransaction (isolation : Except Unit (Option IsolationLevel)) : Served :=
  match c.txn with
  | .failed _ => c.stop s .inFailedTransaction
  | .idle => c.stop s .noActiveTransaction
  | .active txn =>
    match isolation with
    | .error () => c.abort s .isolationNotSupported
    | .ok level =>
      ⟨s, { c with txn := .active { txn with isolation := level.getD txn.isolation } },
        [complete "SET"]⟩

/-- `COMMIT`; in an aborted block it rolls back. -/
def runCommit : Served :=
  match c.txn with
  | .active txn =>
    match (s.setPrincipal c.principal).commit txn with
    | (s, .ok ()) => ⟨s, { c with txn := .idle }, [complete "COMMIT"]⟩
    | (s, .error e) => { c with txn := .idle }.stop s (.engine (.session e))
  | .failed txn => ⟨s.dropLease txn, { c with txn := .idle }, [complete "ROLLBACK"]⟩
  | .idle => ⟨s, c, [complete "COMMIT"]⟩

/-- The lease of the block, if one is open, is given back. -/
def dropBlock : SessionEngine :=
  match c.txn with
  | .active txn => s.dropLease txn
  | .failed txn => s.dropLease txn
  | .idle => s

/-- `ROLLBACK`. -/
def runRollback : Served := ⟨c.dropBlock s, { c with txn := .idle }, [complete "ROLLBACK"]⟩

/-- `SAVEPOINT`. -/
def runSavepoint (name : Name) : Served :=
  match c.txn with
  | .active txn => ⟨s, { c with txn := .active (txn.savepoint name) }, [complete "SAVEPOINT"]⟩
  | .idle => c.stop s .noActiveTransaction
  | .failed _ => c.stop s .inFailedTransaction

/-- `RELEASE SAVEPOINT`. -/
def runRelease (name : Name) : Served :=
  match c.txn with
  | .active txn =>
    if (txn.savepointsUpTo name).isSome then
      ⟨s, { c with txn := .active (txn.release name) }, [complete "RELEASE"]⟩
    else c.abort s (.invalidSavepoint name)
  | .idle => c.stop s .noActiveTransaction
  | .failed _ => c.stop s .inFailedTransaction

/-- Go back to a savepoint of the block `txn`, aborted or not. -/
def rollbackBlockTo (txn : SessionTransaction) (name : Name) : Served :=
  if (txn.savepointsUpTo name).isSome then
    ⟨s, { c with txn := .active (txn.rollbackTo name) }, [complete "ROLLBACK"]⟩
  else { c with txn := .failed txn }.stop s (.invalidSavepoint name)

/-- `ROLLBACK TO SAVEPOINT`, which recovers an aborted block. -/
def runRollbackTo (name : Name) : Served :=
  match c.txn with
  | .active txn => c.rollbackBlockTo s txn name
  | .failed txn => c.rollbackBlockTo s txn name
  | .idle => c.stop s .noActiveTransaction

/-- Transaction control. -/
def runControl : TxnControl → Served
  | .begin_ isolation => c.runBegin s isolation
  | .setTransaction isolation => c.runSetTransaction s isolation
  | .commit => c.runCommit s
  | .rollback => c.runRollback s
  | .savepoint name => c.runSavepoint s name
  | .release name => c.runRelease s name
  | .rollbackTo name => c.runRollbackTo s name

/-- `SET` and `RESET`: the pins and the tag. -/
def applySessionCommand :
    SessionCommand → SessionEngine × Except StatementError (SessionTime × String)
  | .setTime dimension resolve =>
    match resolve s.clock.observe.2 with
    | .error e => (s.observe, .error e)
    | .ok micros => (s.observe, .ok (c.time.set micros dimension, "SET"))
  | .resetTime dimension => (s, .ok (c.time.reset dimension, "RESET"))
  | .resetAll => (s, .ok ({}, "RESET"))
  | .tolerated isReset => (s, .ok (c.time, if isReset then "RESET" else "SET"))

/-- The answer to a query of `pg_catalog`. -/
def introspectionReply (rows : Catalog → List Name → SystemTimeMicros → List Row) : List Row :=
  rows s.catalog s.tables.keys s.clock.current

/-- DDL commits by itself even in a block, which then moves on to a snapshot that sees it. -/
def runDdl (stmt : SessionEngine.DdlStatement) :
    SessionEngine × ConnTxn × Except StatementError Outcome :=
  match runCommand (s.setPrincipal c.principal) (.ddl stmt) with
  | (s, .error e) => (s, c.txn, .error e)
  | (s, .ok o) =>
    match c.txn with
    | .active txn =>
      let (s, txn) := s.repinSnapshot txn
      (s, .active txn, .ok o)
    | other => (s, other, .ok o)

/-- Run a statement on the engine, buffering its writes if a block is open. -/
def runQuery (stmt : EngineStatement) : SessionEngine × ConnTxn × Except StatementError Outcome :=
  match c.txn with
  | .active txn =>
    let (s, txn, r) := executeInTxn (s.setPrincipal c.principal) txn c.time stmt
    (s, .active txn, r)
  | other =>
    let (s, r) := execute (s.setPrincipal c.principal) c.time stmt
    (s, other, r)

/-- The reply to an outcome. -/
def outcomeReply : Outcome → List Reply
  | .rows columns rows =>
    .rowDescription columns :: rows.map .dataRow ++ [.commandComplete (.select rows.length)]
  | .dml => [.commandComplete .dml]
  | .ddl => [.commandComplete .ddl]

/-- The end of a statement that ran. -/
def reply (r : SessionEngine × ConnTxn × Except StatementError Outcome) : Served :=
  match r with
  | (s, txn, .ok o) => ⟨s, { c with txn }, outcomeReply o⟩
  | (s, txn, .error e) => { c with txn }.abort s (.engine e)

/-! ### `COPY` -/

/-- The load failed: the rest of the batch is dropped, or all messages until the next `Sync`. -/
def copyFailed (e : WireError) : Served :=
  ⟨s, { c with
    txn := c.txn.markFailed
    copy := none
    batch := c.batch.map fun _ => []
    skipUntilSync := c.batch.isNone || c.skipUntilSync }, [.error e]⟩

/-- Open copy-in mode. -/
def startCopy (stmt : CopyStatement) : Served :=
  let (s, snapshot) :=
    match c.txn with
    | .active txn => (s, txn.snapshot)
    | _ => (s.observe, s.clock.observe.2)
  match copyShape s stmt snapshot with
  | .error e => c.copyFailed s (.engine e)
  | .ok () => ⟨s, { c with copy := some { stmt } }, [.copyInResponse]⟩

/-- The rows are complete: load or buffer them. -/
def finishCopy (stmt : CopyStatement) (rows : List (List (Option Bytes))) : Served :=
  match c.txn with
  | .active txn =>
    match copyStage (s.setPrincipal c.principal) txn stmt rows with
    | (txn, .ok _) =>
      ⟨s.setPrincipal c.principal, { c with txn := .active txn, copy := none },
        [.commandComplete .copy]⟩
    | (txn, .error e) =>
      { c with txn := .active txn }.copyFailed (s.setPrincipal c.principal) (.engine e)
  | _ =>
    match copyApply (s.setPrincipal c.principal) stmt rows with
    | (s, .ok _) => ⟨s, { c with copy := none }, [.commandComplete .copy]⟩
    | (s, .error e) => c.copyFailed s (.engine e)

/-- The largest load that is buffered. -/
def maxCopyBufferSize : ℕ := 1024 * 1024 * 1024

/-- The connection ends; what it buffered is gone. -/
def close : Served :=
  ⟨c.dropBlock s, { c with txn := .idle, copy := none, batch := none, closed := true }, []⟩

/-- A message in copy-in mode.  `Terminate` ends the mode and no more: the loop then reads on. -/
def receiveCopy (cp : CopyIn) : Message → Served
  | .copyData data =>
    if maxCopyBufferSize < cp.data.length + data.length then c.copyFailed s .programLimitExceeded
    else ⟨s, { c with copy := some { cp with data := cp.data ++ data } }, []⟩
  | .copyDone =>
    match cp.stmt.lex cp.data with
    | .error () => c.copyFailed s .invalidTextRepresentation
    | .ok rows => c.finishCopy s cp.stmt rows
  | .copyFail => c.copyFailed s .queryCanceled
  | .flush => ⟨s, c, []⟩
  | .sync => ⟨s, c, []⟩
  | .terminate => ⟨s, { c with copy := none, batch := c.batch.map fun _ => [] }, []⟩
  | _ => c.close s

/-! ### Simple queries -/

/-- A statement of a simple query outside an aborted block. -/
def runLive : Statement → Served
  | .control ctl => c.runControl s ctl
  | .session cmd =>
    match c.applySessionCommand s cmd with
    | (s, .ok (time, tag)) => ⟨s, { c with time }, [complete tag]⟩
    | (s, .error e) => c.abort s (.engine e)
  | .copyIn stmt => c.startCopy s stmt
  | .introspection columns rows =>
    ⟨s, c, outcomeReply (.rows columns (introspectionReply s rows))⟩
  | .constant row => ⟨s, c, outcomeReply (.rows row.length [row])⟩
  | .engine (.body (.ddl stmt)) => c.reply (c.runDdl s stmt)
  | .engine (.body .badDdl) => c.abort s (.engine .bind)
  | .engine stmt => c.reply (c.runQuery s stmt.capUnboundedSelect)

/-- A statement of a simple query that is not transaction control. -/
def runUnlessFailed (stmt : Statement) : Served :=
  match c.txn with
  | .failed _ => c.stop s .inFailedTransaction
  | _ => c.runLive s stmt

/-- A statement of a simple query. -/
def runStatement : Statement → Served
  | .control ctl => c.runControl s ctl
  | stmt => c.runUnlessFailed s stmt

/-- The next statement of the simple query being served, or its end. -/
def advance : Served :=
  if c.closed ∨ c.copy.isSome then ⟨s, c, []⟩
  else
    match c.batch with
    | none => ⟨s, c, []⟩
    | some [] => ⟨s, { c with batch := none }, [.readyForQuery c.txn.statusByte]⟩
    | some (stmt :: rest) => { c with batch := some rest }.runStatement s stmt

/-- `Query`, which also destroys the unnamed prepared statement and portal. -/
def handleQuery (q : QueryText) : Served :=
  let c := { c with prepared := c.prepared.erase [], portals := c.portals.erase [] }
  match q with
  | .unterminated => ⟨s, c, [.error .protocolViolation, .readyForQuery c.txn.statusByte]⟩
  | .syntaxError => c.abort s .badText
  | .statements [] => ⟨s, { c with batch := some [] }, [.emptyQueryResponse]⟩
  | .statements stmts => ⟨s, { c with batch := some stmts }, []⟩

/-! ### The extended protocol -/

/-- The failure of an extended message. -/
def failExtended (e : WireError) : Served := ⟨s, { c with skipUntilSync := true }, [.error e]⟩

/-- Formats are text or binary, for all slots at once or each. -/
def validateFormats (formats : List ℤ) (slots : ℕ) : Bool :=
  formats.all (fun f => f = 0 ∨ f = 1) &&
    (formats.length = 0 || formats.length = 1 || formats.length = slots)

/-- The format of a slot. -/
def formatAt (formats : List ℤ) (i : ℕ) : ℤ :=
  match formats with
  | [] => 0
  | [single] => single
  | many => many[i]?.getD 0

/-- `Parse`. -/
def handleParse (name : Name) (query : Except Unit (Option Template)) (paramOids : List ℕ) :
    Served :=
  if name ≠ [] ∧ name ∈ c.prepared then c.failExtended s (.duplicatePstatement name)
  else
    match query with
    | .error () => c.failExtended s .badText
    | .ok stmt =>
      ⟨s, { c with prepared := c.prepared.insert name ⟨stmt, paramOids⟩ }, [.parseComplete]⟩

/-- The parameters of a `Bind` with their types and formats. -/
def typedParams (paramOids : List ℕ) (paramFormats : List ℤ) (params : List (Option Bytes)) :
    List (ℕ × Bool × Option Bytes) :=
  params.zipIdx.map fun (raw, i) => (paramOids[i]?.getD 0, formatAt paramFormats i = 1, raw)

/-- The statement of a portal. -/
def bindStatement (prepared : Prepared) (paramFormats : List ℤ) (params : List (Option Bytes)) :
    Except WireError (Option Statement) :=
  if ¬ validateFormats paramFormats params.length then .error .protocolViolation
  else if params.length ≠ prepared.stmt.elim 0 Template.placeholderCount then
    .error .protocolViolation
  else
    match prepared.stmt with
    | none => .ok none
    | some template =>
      match template.substitute (typedParams prepared.paramOids paramFormats params) with
      | none => .error .invalidParameter
      | some stmt => .ok (some stmt)

/-- `Bind`. -/
def handleBind (portal statement : Name) (paramFormats : List ℤ) (params : List (Option Bytes))
    (resultFormats : List ℤ) : Served :=
  match c.prepared[statement]? with
  | none => c.failExtended s (.invalidPstatementName statement)
  | some prepared =>
    match bindStatement prepared paramFormats params with
    | .error e => c.failExtended s e
    | .ok stmt =>
      ⟨s, { c with portals := c.portals.insert portal { stmt, resultFormats } }, [.bindComplete]⟩

/-- The columns of a statement, at the snapshot of the block if one is open. -/
def describe (stmt : EngineStatement) : SessionEngine × Except StatementError (Option ℕ) :=
  match c.txn with
  | .active txn => (s, describeAt s c.time txn.snapshot stmt)
  | .failed txn => (s, describeAt s c.time txn.snapshot stmt)
  | .idle => (s.observe, describeAt s.observe c.time s.clock.observe.2 stmt)

/-- The columns of a prepared statement, if it returns rows.  Nothing runs. -/
def describeStatementColumns : Statement → SessionEngine × Except StatementError (Option ℕ)
  | .introspection columns _ => (s, .ok (some columns))
  | .constant row => (s, .ok (some row.length))
  | stmt => c.describe s stmt.toEngine

/-- The reply to a description. -/
def describedReply : Option ℕ → Reply
  | none => .noData
  | some columns => .rowDescription columns

/-- `Describe` of a prepared statement. -/
def handleDescribe (name : Name) : Served :=
  match c.prepared[name]? with
  | none => c.failExtended s (.invalidPstatementName name)
  | some prepared =>
    match prepared.stmt with
    | none => ⟨s, c, [.parameterDescription prepared.paramOids, .noData]⟩
    | some template =>
      match c.describeStatementColumns s template.unbound with
      | (s, .error e) => c.failExtended s (.engine e)
      | (s, .ok header) =>
        ⟨s, c, [.parameterDescription prepared.paramOids, describedReply header]⟩

/-- What a portal keeps of an outcome. -/
def executedOf : Outcome → Executed
  | .rows columns rows => .rows columns rows 0
  | .dml => .completed .dml
  | .ddl => .completed .ddl

/-- Keep the outcome of a statement. -/
def keep (r : SessionEngine × ConnTxn × Except StatementError Outcome) :
    SessionEngine × Conn × Except StatementError Executed :=
  match r with
  | (s, txn, .ok o) => (s, { c with txn }, .ok (executedOf o))
  | (s, txn, .error e) => (s, { c with txn }, .error e)

/-- Run the statement of a portal. -/
def executeStmt : Statement → SessionEngine × Conn × Except StatementError Executed
  | .session cmd =>
    match c.applySessionCommand s cmd with
    | (s, .ok (time, tag)) => (s, { c with time }, .ok (.completed (.text tag)))
    | (s, .error e) => (s, c, .error e)
  | .introspection columns rows => (s, c, .ok (.rows columns (introspectionReply s rows) 0))
  | .engine (.body (.ddl stmt)) => c.keep (c.runDdl s stmt)
  | .engine (.body .badDdl) => (s, c, .error .bind)
  | .constant row => (s, c, .ok (.rows row.length [row] 0))
  | stmt => c.keep (c.runQuery s stmt.toEngine)

/-- Keep the outcome of a portal's statement. -/
def setExecuted (name : Name) (portal : PortalEntry) (e : Executed) : Conn :=
  { c with portals := c.portals.insert name { portal with executed := some e } }

/-- Run the statement of a portal unless it ran before. -/
def ensureExecuted (name : Name) (portal : PortalEntry) (stmt : Statement) :
    SessionEngine × Conn × Except StatementError Executed :=
  match portal.executed with
  | some e => (s, c, .ok e)
  | none =>
    match c.executeStmt s stmt with
    | (s, c, .error e) => (s, c, .error e)
    | (s, c, .ok e) => (s, c.setExecuted name portal e, .ok e)

/-- Run a portal's statement unless it ran before, and describe its rows. -/
def describeRows (name : Name) (portal : PortalEntry) (stmt : Statement) : Served :=
  match c.ensureExecuted s name portal stmt with
  | (s, c, .error e) => c.failExtended s (.engine e)
  | (s, c, .ok e) =>
    if validateFormats portal.resultFormats e.columnCount then
      ⟨s, c, [.rowDescription e.columnCount]⟩
    else c.failExtended s .protocolViolation

/-- `Describe` of a portal, which runs a statement that returns rows. -/
def handleDescribePortal (name : Name) : Served :=
  match c.portals[name]? with
  | none => c.failExtended s (.invalidCursorName name)
  | some portal =>
    match portal.stmt with
    | none => ⟨s, c, [.noData]⟩
    | some stmt =>
      if stmt.returnsRows then c.describeRows s name portal stmt else ⟨s, c, [.noData]⟩

/-- How many rows an `Execute` sends. -/
def takeCount (maxRows : ℤ) (remaining : ℕ) : ℕ :=
  if maxRows ≤ 0 then remaining else min maxRows.toNat remaining

/-- Send the next rows of a portal. -/
def stream (name : Name) (portal : PortalEntry) (maxRows : ℤ) : Executed → Served
  | .rows columns rows sent =>
    let take := takeCount maxRows (rows.length - sent)
    ⟨s, c.setExecuted name portal (.rows columns rows (sent + take)),
      ((rows.drop sent).take take).map .dataRow ++
        [if sent + take < rows.length then .portalSuspended
          else .commandComplete (.select take)]⟩
  | .completed tag => ⟨s, c, [.commandComplete tag]⟩

/-- Run a portal's statement unless it ran before, and send rows. -/
def runPortal (name : Name) (portal : PortalEntry) (stmt : Statement) (maxRows : ℤ) : Served :=
  match c.ensureExecuted s name portal stmt with
  | (s, c, .error e) => c.failExtended s (.engine e)
  | (s, c, .ok e) =>
    if validateFormats portal.resultFormats e.columnCount then
      c.stream s name portal maxRows e
    else c.failExtended s .protocolViolation

/-- `Execute` outside an aborted block. -/
def executePortal (name : Name) (maxRows : ℤ) : Served :=
  match c.portals[name]? with
  | none => c.failExtended s (.invalidCursorName name)
  | some portal =>
    match portal.stmt with
    | none => ⟨s, c, [.emptyQueryResponse]⟩
    | some (.copyIn stmt) => c.startCopy s stmt
    | some stmt => c.runPortal s name portal stmt maxRows

/-- `Execute`. -/
def handleExecute (name : Name) (maxRows : ℤ) : Served :=
  match c.txn with
  | .failed _ => c.failExtended s .inFailedTransaction
  | _ => c.executePortal s name maxRows

/-! ### The message loop -/

/-- A message outside copy-in mode, when none is skipped. -/
def handle : Message → Served
  | .query q => c.handleQuery s q
  | .parse name query paramOids => c.handleParse s name query paramOids
  | .bind portal statement paramFormats params resultFormats =>
    c.handleBind s portal statement paramFormats params resultFormats
  | .describeStatement name => c.handleDescribe s name
  | .describePortal name => c.handleDescribePortal s name
  | .execute portal maxRows => c.handleExecute s portal maxRows
  | .closeStatement name => ⟨s, { c with prepared := c.prepared.erase name }, [.closeComplete]⟩
  | .closePortal name => ⟨s, { c with portals := c.portals.erase name }, [.closeComplete]⟩
  | .flush => ⟨s, c, []⟩
  | .sync => ⟨s, { c with skipUntilSync := false }, [.readyForQuery c.txn.statusByte]⟩
  | _ => c.close s

/-- The message is served even while messages are dropped. -/
def neverSkipped : Message → Bool
  | .sync => true
  | .terminate => true
  | _ => false

/-- The next message.  None is read while a simple query has statements to run. -/
def receive (m : Message) : Served :=
  if c.closed then ⟨s, c, []⟩
  else
    match c.copy with
    | some cp => c.receiveCopy s cp m
    | none =>
      if c.batch.isSome then ⟨s, c, []⟩
      else if c.skipUntilSync ∧ ¬ neverSkipped m then ⟨s, c, []⟩
      else c.handle s m

/-- The connection serves the message outside copy-in mode. -/
def serves (m : Message) : Bool :=
  !c.closed && c.copy.isNone && c.batch.isNone && (!c.skipUntilSync || neverSkipped m)

/-- The connection goes on with its simple query. -/
def advances : Bool := !c.closed && c.copy.isNone

/-- What a connection does next. -/
inductive Action where
  /-- Go on with the simple query. -/
  | advance
  /-- Read a message. -/
  | receive (m : Message)

/-- A step of a connection. -/
def step : Action → Served
  | .advance => c.advance s
  | .receive m => c.receive s m

end Conn

/-! ### Runs of one connection -/

/-- A step of a connection, on the engine as the other connections have left it. -/
structure Turn where
  /-- The engine. -/
  engine : SessionEngine
  /-- What the connection does. -/
  action : Conn.Action

namespace Conn

/-- A step on a given engine. -/
def serve (c : Conn) (t : Turn) : Served := c.step t.engine t.action

/-- The connection after a step. -/
def next (c : Conn) (t : Turn) : Conn := (c.serve t).conn

/-- The replies of a run, one after the other. -/
def transcript (c : Conn) : List Turn → List Reply
  | [] => []
  | t :: turns => (c.serve t).replies ++ (c.next t).transcript turns

end Conn

/-! ### What a step can do -/

namespace Conn

variable {c : Conn} {s : SessionEngine}

/-- What it takes for a message to be served. -/
theorem serves_of {m : Message} (hclosed : ¬ c.closed = true) (hcopy : c.copy = none)
    (hbatch : ¬ c.batch.isSome = true)
    (hskip : ¬ (c.skipUntilSync = true ∧ ¬ neverSkipped m = true)) : c.serves m = true := by
  simp only [serves, hcopy]
  cases hs : c.skipUntilSync <;> cases hm : neverSkipped m <;> simp_all

/-- The cases of reading a message: it is not read, it belongs to a `COPY`, or it is handled. -/
theorem receive_cases (c : Conn) (s : SessionEngine) (m : Message) :
    c.receive s m = ⟨s, c, []⟩ ∨
      (∃ cp, c.closed = false ∧ c.copy = some cp ∧ c.receive s m = c.receiveCopy s cp m) ∨
      (c.serves m = true ∧ c.copy = none ∧ c.closed = false ∧ c.batch = none ∧
        c.receive s m = c.handle s m) := by
  unfold receive
  by_cases hclosed : c.closed = true
  · exact .inl (if_pos hclosed)
  rw [if_neg hclosed]
  rw [Bool.not_eq_true] at hclosed
  cases hcopy : c.copy with
  | some cp => exact .inr (.inl ⟨cp, hclosed, rfl, rfl⟩)
  | none =>
    cases hbatch : c.batch with
    | some stmts => exact .inl rfl
    | none =>
      by_cases hskip : c.skipUntilSync = true ∧ ¬ neverSkipped m = true
      · exact .inl (if_pos hskip)
      · exact .inr (.inr ⟨serves_of (by simp [hclosed]) hcopy (by simp [hbatch]) hskip, rfl,
          hclosed, rfl, if_neg hskip⟩)

/-- The cases of going on with a simple query. -/
theorem advance_cases (c : Conn) (s : SessionEngine) :
    c.advance s = ⟨s, c, []⟩ ∨
      (c.advances = true ∧ c.copy = none ∧ c.batch = some [] ∧
        c.advance s = ⟨s, { c with batch := none }, [.readyForQuery c.txn.statusByte]⟩) ∨
      (∃ stmt rest, c.advances = true ∧ c.copy = none ∧ c.batch = some (stmt :: rest) ∧
        c.advance s = ({ c with batch := some rest } : Conn).runStatement s stmt) := by
  unfold advance
  by_cases hrun : c.closed = true ∨ c.copy.isSome = true
  · exact .inl (if_pos hrun)
  rw [if_neg hrun]
  simp only [not_or, Bool.not_eq_true, Option.isSome_eq_false_iff, Option.isNone_iff_eq_none]
    at hrun
  obtain ⟨hclosed, hcopy⟩ := hrun
  have hadv : c.advances = true := by simp [advances, hclosed, hcopy]
  cases hb : c.batch with
  | none => exact .inl rfl
  | some stmts =>
    cases stmts with
    | nil => exact .inr (.inl ⟨hadv, hcopy, rfl, rfl⟩)
    | cons stmt rest => exact .inr (.inr ⟨stmt, rest, hadv, hcopy, rfl, rfl⟩)

/-- Transaction control only changes the transaction state and the rest of the batch. -/
theorem runControl_conn (c : Conn) (s : SessionEngine) (ctl : TxnControl) :
    ∃ txn batch, (c.runControl s ctl).conn = { c with txn, batch } := by
  cases ctl with
  | begin_ isolation =>
    simp only [runControl, runBegin]
    cases c.txn with
    | idle => cases isolation <;> exact ⟨_, _, rfl⟩
    | active txn => exact ⟨_, _, rfl⟩
    | failed txn => exact ⟨_, _, rfl⟩
  | setTransaction isolation =>
    simp only [runControl, runSetTransaction]
    cases c.txn with
    | idle => exact ⟨_, _, rfl⟩
    | active txn => cases isolation <;> exact ⟨_, _, rfl⟩
    | failed txn => exact ⟨_, _, rfl⟩
  | commit =>
    simp only [runControl, runCommit]
    cases c.txn with
    | idle => exact ⟨_, _, rfl⟩
    | failed txn => exact ⟨_, _, rfl⟩
    | active txn =>
      simp only
      obtain ⟨s', r⟩ := (s.setPrincipal c.principal).commit txn
      cases r <;> exact ⟨_, _, rfl⟩
  | rollback => exact ⟨_, _, rfl⟩
  | savepoint name =>
    simp only [runControl, runSavepoint]
    cases c.txn <;> exact ⟨_, _, rfl⟩
  | release name =>
    simp only [runControl, runRelease]
    cases c.txn with
    | idle => exact ⟨_, _, rfl⟩
    | failed txn => exact ⟨_, _, rfl⟩
    | active txn =>
      simp only
      split <;> exact ⟨_, _, rfl⟩
  | rollbackTo name =>
    simp only [runControl, runRollbackTo, rollbackBlockTo]
    cases c.txn with
    | idle => exact ⟨_, _, rfl⟩
    | failed txn =>
      simp only
      split <;> exact ⟨_, _, rfl⟩
    | active txn =>
      simp only
      split <;> exact ⟨_, _, rfl⟩

theorem reply_conn (c : Conn) (r : SessionEngine × ConnTxn × Except StatementError Outcome) :
    ∃ txn batch, (c.reply r).conn = { c with txn, batch } := by
  obtain ⟨s', txn', r⟩ := r
  cases r <;> exact ⟨_, _, rfl⟩

/-- Running a portal's statement only changes the transaction state and the pinned instants. -/
theorem executeStmt_conn (c : Conn) (s : SessionEngine) (stmt : Statement) :
    ∃ txn time, (c.executeStmt s stmt).2.1 = { c with txn, time } := by
  have hkeep (r : SessionEngine × ConnTxn × Except StatementError Outcome) :
      ∃ txn time, (c.keep r).2.1 = { c with txn, time } := by
    obtain ⟨s', txn', r⟩ := r
    cases r <;> exact ⟨_, _, rfl⟩
  cases stmt with
  | session cmd =>
    simp only [executeStmt]
    obtain ⟨s', r⟩ := c.applySessionCommand s cmd
    cases r <;> exact ⟨_, _, rfl⟩
  | introspection columns rows => exact ⟨_, _, rfl⟩
  | constant row => exact ⟨_, _, rfl⟩
  | control ctl => exact hkeep _
  | copyIn stmt => exact hkeep _
  | engine stmt =>
    cases stmt with
    | admin cmd => exact hkeep _
    | explain analyze inner lines => exact hkeep _
    | body b =>
      cases b with
      | badDdl => exact ⟨_, _, rfl⟩
      | ddl stmt => exact hkeep _
      | query q => exact hkeep _
      | dml d => exact hkeep _
      | other => exact hkeep _

end Conn

end Wire

end SteleDb
