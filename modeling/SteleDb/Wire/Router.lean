import SteleDb.Session.Txn

/-!
# The router of statements

A statement reaches the session engine parsed, and is bound when it runs: against the catalog, at
the snapshot it reads at.  This module says what the engine does with it, outside a transaction
(`execute`) and inside one (`executeInTxn`), how it describes the columns of a read without running
it (`describe`), and how it takes the rows of a `COPY`.

What a read returns is a function of the view of the engine that reads have, which leaves out who
asks; what a `DML` statement writes is a function of that view too.  The names of tables and columns
and the text of a plan are resolved by those functions and not modelled further.
-/

namespace SteleDb

namespace Wire

/-! ### Statements -/

/-- Why a statement is refused. -/
inductive StatementError where
  /-- By the session engine. -/
  | session (e : SessionError)
  /-- It does not bind at its snapshot. -/
  | bind
  /-- It cannot be evaluated. -/
  | evaluate
  /-- The engine has no route for it. -/
  | unsupported
  deriving DecidableEq, Repr

/-- A row of a result. -/
abbrev Row := List (Option Bytes)

/-- The instants a connection has pinned its reads to. -/
structure SessionTime where
  /-- On the system-time axis. -/
  system : Option SystemTimeMicros := none
  /-- On the valid-time axis. -/
  valid : Option ValidTimeMicros := none
  deriving DecidableEq, Repr

/-- What a read looks at.  It does not see who asks. -/
structure ReadView where
  /-- The catalog. -/
  catalog : Catalog
  /-- The clock. -/
  clock : MonotonicClock
  /-- The tables. -/
  tables : OrdMap Name TableState
  /-- The commit log, for audits. -/
  commitLog : AppendLog CommitRecord

/-- The view of a session that reads have. -/
def readView (s : SessionEngine) : ReadView := ⟨s.catalog, s.clock, s.tables, s.commitLog⟩

/-- A `SELECT`. -/
structure Query where
  /-- The base tables it reads, if it binds at a snapshot. -/
  tables : SessionTime → Catalog → SystemTimeMicros → Except StatementError (List Name)
  /-- The base tables of the statement without its filter. -/
  describedTables : SessionTime → Catalog → SystemTimeMicros → Except StatementError (List Name)
  /-- The number of its columns. -/
  columns : SessionTime → Catalog → SystemTimeMicros → ℕ
  /-- Its rows, over the writes buffered so far. -/
  rows : SessionTime → ReadView → SystemTimeMicros → List BoundDml →
    Except StatementError (List Row)
  /-- Its rows with the row cap of simple queries, which a read with its own bound ignores. -/
  cappedRows : SessionTime → ReadView → SystemTimeMicros → List BoundDml →
    Except StatementError (List Row)

/-- A bound `INSERT`, `UPDATE`, `DELETE` or `MERGE`. -/
structure DmlPlan where
  /-- The table it writes. -/
  table : Name
  /-- The privileges its verb needs there; a `MERGE` needs three. -/
  privileges : List Privilege
  /-- The table a `MERGE` reads its rows from. -/
  source : Option Name
  /-- The point writes it stands for, over the writes buffered so far. -/
  writes : ReadView → SystemTimeMicros → List BoundDml →
    Except StatementError SessionEngine.DmlStatement
  /-- They are writes of its verb to its table. -/
  writes_table : ∀ {view snapshot overlay stmt}, writes view snapshot overlay = .ok stmt →
    ∀ w ∈ stmt.writes, w.table = table ∧ SessionEngine.BoundOp.privilege w.op ∈ privileges

/-- A DML statement: what it is bound to at a snapshot. -/
structure Dml where
  /-- The bound statement. -/
  bind : Catalog → SystemTimeMicros → Except StatementError DmlPlan
  /-- It binds only if its table is there. -/
  bind_resolves : ∀ {catalog snapshot plan}, bind catalog snapshot = .ok plan →
    (catalog.resolve plan.table snapshot).isSome

/-- A `COPY … FROM STDIN`. -/
structure CopyStatement where
  /-- The table. -/
  table : Name
  /-- It binds at a snapshot. -/
  bind : Catalog → SystemTimeMicros → Except StatementError Unit
  /-- It binds only if its table is there. -/
  bind_resolves : ∀ {catalog snapshot}, bind catalog snapshot = .ok () →
    (catalog.resolve table snapshot).isSome
  /-- Split the bytes that were sent into rows. -/
  lex : Bytes → Except Unit (List (List (Option Bytes)))
  /-- What the fields of a row stand for at a snapshot, if they fit the columns. -/
  row : Catalog → SystemTimeMicros → List (Option Bytes) → Option SessionEngine.CopyRow

/-- A statement with a SQL body; only these can be explained. -/
inductive Body where
  /-- A read. -/
  | query (q : Query)
  /-- A write. -/
  | dml (d : Dml)
  /-- DDL. -/
  | ddl (stmt : SessionEngine.DdlStatement)
  /-- DDL that does not bind. -/
  | badDdl
  /-- None of these. -/
  | other

/-- A statement that the engine routes. -/
inductive EngineStatement where
  /-- A statement with a SQL body. -/
  | body (b : Body)
  /-- Maintenance. -/
  | admin (cmd : SessionEngine.AdminCommand)
  /-- `EXPLAIN`; `lines` is the plan as it is shown. -/
  | explain (analyze : Bool) (inner : Body) (lines : ReadView → SystemTimeMicros → List Row)

/-- What a statement returns. -/
inductive Outcome where
  /-- Rows, of this many columns. -/
  | rows (columns : ℕ) (rows : List Row)
  /-- A write was done. -/
  | dml
  /-- DDL or maintenance was done. -/
  | ddl
  deriving DecidableEq, Repr

/-! ### Authorization -/

/-- The role holds the privilege on every table. -/
def authorizeTables (s : SessionEngine) (privilege : Privilege) :
    List Name → Except StatementError Unit
  | [] => .ok ()
  | table :: tables =>
    match s.authorizeTable table privilege with
    | .error e => .error (.session e)
    | .ok () => authorizeTables s privilege tables

/-- The role holds every privilege on the table. -/
def authorizeAll (s : SessionEngine) (table : Name) : List Privilege → Except StatementError Unit
  | [] => .ok ()
  | privilege :: privileges =>
    match s.authorizeTable table privilege with
    | .error e => .error (.session e)
    | .ok () => authorizeAll s table privileges

/-- Who may run a write: the role needs the privileges of its verb, and may read the source of a
`MERGE`. -/
def authorizeDml (s : SessionEngine) (plan : DmlPlan) : Except StatementError Unit :=
  match authorizeAll s plan.table plan.privileges with
  | .error e => .error e
  | .ok () => authorizeTables s .select plan.source.toList

/-- Who may see the plan of a statement.  One that does not bind is reported later. -/
def authorizeInner (s : SessionEngine) (time : SessionTime) (snapshot : SystemTimeMicros) :
    Body → Except StatementError Unit
  | .query q =>
    match q.tables time s.catalog snapshot with
    | .error _ => .ok ()
    | .ok tables => authorizeTables s .select tables
  | .dml d =>
    match d.bind s.catalog snapshot with
    | .error _ => .ok ()
    | .ok plan => authorizeDml s plan
  | _ => .ok ()

/-- Nothing runs after a lost commit record. -/
def refuseIfPoisoned (s : SessionEngine) : Except StatementError Unit :=
  match s.refuseIfCommitPoisoned with
  | .error e => .error (.session e)
  | .ok () => .ok ()

/-! ### Outside a transaction -/

/-- Run a read at a snapshot. -/
def runQuery (s : SessionEngine) (q : Query) (time : SessionTime) (snapshot : SystemTimeMicros)
    (overlay : List BoundDml) : Except StatementError Outcome := do
  refuseIfPoisoned s
  let tables ← q.tables time s.catalog snapshot
  authorizeTables s .select tables
  let rows ← q.rows time (readView s) snapshot overlay
  pure (.rows (q.columns time s.catalog snapshot) rows)

/-- The writes of an auto-committed DML statement. -/
def bindDml (s : SessionEngine) (d : Dml) (snapshot : SystemTimeMicros) (overlay : List BoundDml) :
    Except StatementError SessionEngine.DmlStatement := do
  refuseIfPoisoned s
  let plan ← d.bind s.catalog snapshot
  authorizeDml s plan
  plan.writes (readView s) snapshot overlay

/-- Lift the result of the session engine. -/
def liftResult (o : Outcome) : Except SessionError Unit → Except StatementError Outcome
  | .ok () => .ok o
  | .error e => .error (.session e)

/-- Run an auto-committed DML statement. -/
def runDml (s : SessionEngine) (d : Dml) : SessionEngine × Except StatementError Outcome :=
  match bindDml s d s.clock.observe.2 [] with
  | .error e => (s.observe, .error e)
  | .ok stmt =>
    let (s, r) := s.executeDml stmt
    (s, liftResult .dml r)

/-- Run a command. -/
def runCommand (s : SessionEngine) (c : SessionEngine.Command) :
    SessionEngine × Except StatementError Outcome :=
  let (s, r) := s.executeCommand c
  (s, liftResult .ddl r)

/-- Run a statement with a SQL body at a fresh snapshot. -/
def executeBody (s : SessionEngine) (time : SessionTime) :
    Body → SessionEngine × Except StatementError Outcome
  | .query q => (s.observe, runQuery s.observe q time s.clock.observe.2 [])
  | .dml d => runDml s d
  | .ddl stmt => runCommand s (.ddl stmt)
  | .badDdl => (s.observe, .error .bind)
  | .other => (s.observe, .error .unsupported)

/-- The plan of a statement; only reads and writes have one. -/
def planFor (s : SessionEngine) (time : SessionTime) (snapshot : SystemTimeMicros)
    (lines : ReadView → SystemTimeMicros → List Row) : Body → Except StatementError Outcome
  | .query q =>
    match q.tables time s.catalog snapshot with
    | .error e => .error e
    | .ok _ => .ok (.rows 1 (lines (readView s) snapshot))
  | .dml d =>
    match d.bind s.catalog snapshot with
    | .error e => .error e
    | .ok _ => .ok (.rows 1 (lines (readView s) snapshot))
  | _ => .error .unsupported

/-- `EXPLAIN` without `ANALYZE`, once the session is known not to be poisoned. -/
def explainPlan (s : SessionEngine) (time : SessionTime) (snapshot : SystemTimeMicros)
    (lines : ReadView → SystemTimeMicros → List Row) (inner : Body) :
    Except StatementError Outcome :=
  match authorizeInner s time snapshot inner with
  | .error e => .error e
  | .ok () => planFor s time snapshot lines inner

/-- Run an auto-committed statement.  `EXPLAIN ANALYZE` runs the statement it explains. -/
def execute (s : SessionEngine) (time : SessionTime) :
    EngineStatement → SessionEngine × Except StatementError Outcome
  | .body b => executeBody s time b
  | .admin cmd => runCommand s (.admin cmd)
  | .explain false inner lines =>
    match refuseIfPoisoned s with
    | .error e => (s.observe, .error e)
    | .ok () => (s.observe, explainPlan s.observe time s.clock.observe.2 lines inner)
  | .explain true inner lines =>
    match executeBody s time inner with
    | (s', .error e) => (s', .error e)
    | (s', .ok _) => (s', planFor s' time s.clock.observe.2 lines inner)

/-! ### Inside a transaction -/

/-- Buffer the writes of a DML statement. -/
def stageDml (s : SessionEngine) (txn : SessionTransaction) (d : Dml) :
    SessionTransaction × Except StatementError Outcome :=
  match bindDml s d txn.snapshot (txn.staged.map Prod.fst) with
  | .error e => (txn, .error e)
  | .ok stmt =>
    let (txn, r) := s.stageDml txn stmt.writes
    (txn, liftResult .dml r)

/-- Run a statement with a SQL body inside a transaction. -/
def executeBodyInTxn (s : SessionEngine) (txn : SessionTransaction) (time : SessionTime) :
    Body → SessionEngine × SessionTransaction × Except StatementError Outcome
  | .query q =>
    let (s, txn) := s.startStatement txn
    (s, txn, runQuery s q time txn.snapshot (txn.staged.map Prod.fst))
  | .dml d =>
    let (s, txn) := s.startStatement txn
    let (txn, r) := stageDml s txn d
    (s, txn, r)
  | .ddl stmt =>
    let (s, txn, r) := s.executeCommandInTxn txn (.ddl stmt)
    (s, txn, liftResult .ddl r)
  | .badDdl =>
    let (s, txn) := s.startStatement txn
    (s, txn, .error .bind)
  | .other =>
    let (s, txn) := s.startStatement txn
    (s, txn, .error .unsupported)

/-- Run a statement inside a transaction.  The plan that `EXPLAIN` shows is bound at the snapshot
from before the statement. -/
def executeInTxn (s : SessionEngine) (txn : SessionTransaction) (time : SessionTime) :
    EngineStatement → SessionEngine × SessionTransaction × Except StatementError Outcome
  | .body b => executeBodyInTxn s txn time b
  | .admin cmd =>
    let (s, txn, r) := s.executeCommandInTxn txn (.admin cmd)
    (s, txn, liftResult .ddl r)
  | .explain false inner lines => (s, txn, explainPlan s time txn.snapshot lines inner)
  | .explain true inner lines =>
    match executeBodyInTxn s txn time inner with
    | (s', txn', .error e) => (s', txn', .error e)
    | (s', txn', .ok _) => (s', txn', planFor s' time txn.snapshot lines inner)

/-! ### Describing -/

/-- The number of columns of a statement, if it returns rows.  Nothing runs, but the columns of a
read say something about its tables. -/
def describeAt (s : SessionEngine) (time : SessionTime) (snapshot : SystemTimeMicros) :
    EngineStatement → Except StatementError (Option ℕ)
  | .explain .. => .ok (some 1)
  | .body (.query q) => do
    let tables ← q.describedTables time s.catalog snapshot
    authorizeTables s .select tables
    pure (some (q.columns time s.catalog snapshot))
  | _ => .ok none

/-! ### `COPY` -/

/-- What a `COPY` loads into, asked before the rows are sent. -/
def copyShape (s : SessionEngine) (c : CopyStatement) (snapshot : SystemTimeMicros) :
    Except StatementError Unit := do
  c.bind s.catalog snapshot
  match s.authorizeTable c.table .insert with
  | .error e => .error (.session e)
  | .ok () => pure ()

/-- Who may load rows.  A statement that does not bind now is reported later. -/
def authorizeCopy (s : SessionEngine) (c : CopyStatement) : Except StatementError Unit :=
  match c.bind s.catalog s.clock.current with
  | .error _ => .ok ()
  | .ok () =>
    match s.authorizeTable c.table .insert with
    | .error e => .error (.session e)
    | .ok () => .ok ()

/-- Load rows outside a transaction. -/
def copyApply (s : SessionEngine) (c : CopyStatement) (rows : List (List (Option Bytes))) :
    SessionEngine × Except StatementError Outcome :=
  match (do refuseIfPoisoned s; authorizeCopy s c : Except StatementError Unit) with
  | .error e => (s, .error e)
  | .ok () =>
    match c.bind s.catalog s.clock.observe.2 with
    | .error e => (s.observe, .error e)
    | .ok () =>
      let (s, r) := s.copyApply c.table (rows.map (c.row s.catalog s.clock.observe.2))
      (s, liftResult .dml r)

/-- Buffer rows in a transaction. -/
def copyStage (s : SessionEngine) (txn : SessionTransaction) (c : CopyStatement)
    (rows : List (List (Option Bytes))) : SessionTransaction × Except StatementError Outcome :=
  match (do
    refuseIfPoisoned s
    authorizeCopy s c
    c.bind s.catalog txn.snapshot : Except StatementError Unit) with
  | .error e => (txn, .error e)
  | .ok () =>
    match rows.mapM (c.row s.catalog txn.snapshot) with
    | none => (txn, .error .evaluate)
    | some rows => (txn.stageAll (rows.map (SessionEngine.CopyRow.dml c.table)), .ok .dml)

end Wire

end SteleDb
