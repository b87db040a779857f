import SteleDb.Session.CatalogCodec

/-!
# The session engine: bulk loads, maintenance and DDL

A bulk load is one transaction of many rows.  It seals what is staged first, so that the delta tier
holds only its own rows, logs its rows in chunks, and drops the whole delta tier if it fails.

A `DROP TABLE` ends the schema of a name and closes the rows still open; the storage of the name
stays, and a later `CREATE TABLE` of the same name takes it over.  Every DDL statement is stamped
with a reading of the clock and counts once its record in the catalog log is fsynced.
-/

namespace SteleDb

namespace SessionEngine

variable (s : SessionEngine)

/-! ### Bulk loads -/

/-- Rows of a chunk of a bulk load. -/
def bulkCopyChunkRows : ℕ := 4096

/-- A row of a bulk load. -/
structure CopyRow where
  /-- The key. -/
  key : BusinessKey
  /-- The value cells. -/
  values : Cells
  deriving DecidableEq

/-- The insert a row of a bulk load stands for. -/
def CopyRow.dml (table : Name) (row : CopyRow) : BoundDml :=
  ⟨table, row.key, .insert row.values none⟩

/-- Apply writes in order, up to the first that is refused. -/
def applyAll (txnId : TxnId) (principal : Bytes) :
    SessionEngine → List BoundDml → SessionEngine × Except SessionError Unit
  | s, [] => (s, .ok ())
  | s, dml :: dmls =>
    match s.applyBoundDml dml txnId principal with
    | (s, .error e) => (s, .error e)
    | (s, .ok ()) => applyAll txnId principal s dmls

/-- Log the rows a bulk load has applied since its last chunk. -/
def commitBulkChunk (txnId : TxnId) (table : Name) : SessionEngine × Except SessionError Unit :=
  match s.tableMut table with
  | .error e => (s, .error e)
  | .ok st =>
    match st.engine.commitBulkChunk txnId with
    | (e, .ok ()) => (s.setEngine table st e, .ok ())
    | (e, .error err) => (s.setEngine table st e, .error (.storage (.dml err)))

/-- Apply and log the chunks of a bulk load; a row that is `none` does not bind, and refuses its
chunk. -/
def bulkCopyChunks (txnId : TxnId) (principal : Bytes) (table : Name) :
    SessionEngine → List (List (Option CopyRow)) → SessionEngine × Except SessionError Unit
  | s, [] => (s, .ok ())
  | s, chunk :: chunks =>
    match chunk.mapM fun row => row with
    | none => (s, .error .copy)
    | some rows =>
      match applyAll txnId principal s (rows.map (CopyRow.dml table)) with
      | (s, .error e) => (s, .error e)
      | (s, .ok ()) =>
        match s.commitBulkChunk txnId table with
        | (s, .error e) => (s, .error e)
        | (s, .ok ()) => bulkCopyChunks txnId principal table s.pruneWriteIndex chunks

/-- A bulk load. -/
def bulkCopyApply (table : Name) (rows : List (Option CopyRow)) :
    SessionEngine × Except SessionError Unit :=
  match s.tableMut table with
  | .error e => (s, .error e)
  | .ok st =>
    match st.engine.flush with
    | (e, .error err) => (s.setEngine table st e, .error (.storage err))
    | (e, .ok ()) =>
      match bulkCopyChunks s.nextTxn s.writePrincipal table
        (s.setEngine table st e.beginBulkGroup).takeTxnId (rows.toChunks bulkCopyChunkRows) with
      | (s, .error err) => ((s.abortGroup table).pruneWriteIndex, .error err)
      | (s', .ok ()) =>
        match s'.tableMut table with
        | .error err => (s', .error err)
        | .ok st =>
          match (s'.setEngine table st st.engine.endBulkGroup).recordCommit s.nextTxn with
          | (s, .error err) => (s, .error err)
          | (s, .ok ()) => (s.pruneWriteIndex, .ok ())

/-- Who may load rows.  A table that does not resolve is reported later. -/
def authorizeCopy (table : Name) : Except SessionError Unit :=
  if (s.catalog.resolve table s.clock.current).isSome then s.authorizeTable table .insert
  else .ok ()

/-- `COPY … FROM STDIN` of rows: a small load is one group of inserts. -/
def copyApply (table : Name) (rows : List (Option CopyRow)) :
    SessionEngine × Except SessionError Unit :=
  match s.refuseIfCommitPoisoned with
  | .error e => (s, .error e)
  | .ok () =>
    match s.authorizeCopy table with
    | .error e => (s, .error e)
    | .ok () =>
      if (s.catalog.resolve table s.clock.observe.2).isNone then
        (s.observe, .error (.unknownTable table))
      else if rows.length ≤ bulkCopyChunkRows then
        match rows.mapM fun row => row with
        | none => (s.observe, .error .copy)
        | some rows => s.observe.applyWriteGroup (rows.map (CopyRow.dml table))
      else s.observe.bulkCopyApply table rows

/-! ### Maintenance -/

/-- Run an operation on every table, up to the first failure. -/
def forTables (f : Engine → Engine × Except EngineError Unit) :
    SessionEngine → List Name → SessionEngine × Except SessionError Unit
  | s, [] => (s, .ok ())
  | s, table :: tables =>
    match s.tables[table]? with
    | none => forTables f s tables
    | some st =>
      match f st.engine with
      | (e, .error err) => (s.setEngine table st e, .error (.storage err))
      | (e, .ok ()) => forTables f (s.setEngine table st e) tables

/-- `FLUSH`. -/
def flush : SessionEngine × Except SessionError Unit := forTables Engine.flush s s.tables.keys

/-- `CHECKPOINT`. -/
def checkpoint : SessionEngine × Except SessionError Unit :=
  forTables Engine.checkpoint s s.tables.keys

/-- Flush a table, then merge its segments. -/
def flushCompact (e : Engine) : Engine × Except EngineError Unit :=
  match e.flush with
  | (e, .error err) => (e, .error err)
  | (e, .ok ()) => e.compact

/-- `COMPACT`. -/
def compact : SessionEngine × Except SessionError Unit := forTables flushCompact s s.tables.keys

/-! ### DDL -/

/-- A bound DDL statement. -/
inductive DdlStatement where
  /-- `CREATE TABLE`. -/
  | createTable (name : Name) (columns : List ColumnDef) (validTime : Option ValidTimeSpec)
  /-- `DROP TABLE`. -/
  | dropTable (name : Name) (ifExists : Bool)
  /-- `CREATE INDEX`; `built` is whether its access structure can be built from the rows. -/
  | createIndex (name table : Name) (kind : IndexKind) (columns : List Name) (built : Bool)
  /-- `DROP INDEX`. -/
  | dropIndex (name : Name) (ifExists : Bool)
  /-- `CREATE USER`, with the verifier derived from the password and a fresh salt. -/
  | createUser (name : Name) (verifier : ScramVerifier) (superuser : Bool)
  /-- `ALTER USER … PASSWORD`, with the verifier derived from the new password. -/
  | alterUserPassword (name : Name) (verifier : ScramVerifier)
  /-- `DROP USER`. -/
  | dropUser (name : Name) (ifExists : Bool)
  /-- `GRANT`. -/
  | grant (table : Name) (grantee : Grantee) (privileges : List Privilege)
  /-- `REVOKE`. -/
  | revoke (table : Name) (grantee : Grantee) (privileges : List Privilege)
  deriving DecidableEq

/-- Who may run a DDL statement.  Creating a table is open to every role; granting checks the owner
later, once the table is known to exist. -/
def authorizeDdl : DdlStatement → Except SessionError Unit
  | .createTable .. => .ok ()
  | .grant .. => .ok ()
  | .revoke .. => .ok ()
  | .dropTable name _ =>
    if (s.catalog.resolve name s.clock.current).isSome then s.requireTableOwner name else .ok ()
  | .createIndex _ table .. => s.requireTableOwner table
  | .dropIndex name _ =>
    match s.catalog.indexes[name]? with
    | none => .ok ()
    | some index => s.requireTableOwner index.table
  | .createUser .. => s.requireSuperuser "CREATE USER"
  | .alterUserPassword name _ =>
    if name = s.currentRole then .ok () else s.requireSuperuser "ALTER USER"
  | .dropUser .. => s.requireSuperuser "DROP USER"

/-- Log a DDL statement, if its record can be framed. -/
def logDdl (record : CatalogRecord) : SessionEngine × Except SessionError Unit :=
  match record.framedPayload with
  | .error _ => (s, .error .catalogLog)
  | .ok payload =>
    match s.catalogLog.append payload with
    | (log, true) => ({ s with catalogLog := log }, .ok ())
    | (log, false) => ({ s with catalogLog := log }, .error .catalogLog)

/-- The tier a created table is stored in: the one its name has had before, or a new one. -/
def tierFor (name : Name) (validTime : Bool) : Except SessionError (SessionEngine × TableState) :=
  match s.tables[name]? with
  | some prev =>
    if prev.validTime ≠ validTime then .error (.validTimePolicyChange name) else .ok (s, prev)
  | none =>
    .ok ({ s with nextNamespace := s.nextNamespace + 1 },
      ⟨{ writer := { validTime } }, validTime, s.nextNamespace⟩)

/-- `CREATE TABLE`. -/
def applyCreateTable (at_ : SystemTimeMicros) (name : Name) (columns : List ColumnDef)
    (validTime : Option ValidTimeSpec) : SessionEngine × Except SessionError Unit :=
  match s.tierFor name validTime.isSome with
  | .error e => (s, .error e)
  | .ok (s, tier) =>
    match s.catalog.createTable name columns validTime at_ with
    | .error e => (s, .error (.catalog e))
    | .ok (catalog, _) =>
      match s.logDdl (.createTable at_ tier.ns name columns validTime (some s.currentRole)) with
      | (s, .error e) => (s, .error e)
      | (s, .ok ()) =>
        let access := s.access.forgetTable name
        ({ s with catalog
                  access := { access with owners := access.owners.insert name s.currentRole }
                  tables := s.tables.insert name tier }, .ok ())

/-- `DROP TABLE`. -/
def applyDropTable (at_ : SystemTimeMicros) (name : Name) (ifExists : Bool) :
    SessionEngine × Except SessionError Unit :=
  match s.catalog.dropTable name at_ with
  | .error (.unknownTable t) =>
    (s, if ifExists then .ok () else .error (.catalog (.unknownTable t)))
  | .error e => (s, .error (.catalog e))
  | .ok (catalog, _) =>
    match s.logDdl (.dropTable at_ name) with
    | (s, .error e) => (s, .error e)
    | (s, .ok ()) =>
      let s := { s with catalog }
      match s.tables[name]? with
      | none => (s, .ok ())
      | some st =>
        let (e, clock, r) := st.engine.closeAllOpen s.clock at_ s.nextTxn s.writePrincipal
        let s := { (s.setEngine name st e).takeTxnId with clock }
        match r with
        | .error err => (s, .error (.storage (.dml err)))
        | .ok () => (s, .ok ())

/-- The engine after the rows of a dropped table were closed, as far as they could be. -/
def closeRows (s : SessionEngine) (name : Name) (st : TableState) (e : Engine)
    (clock : MonotonicClock) : SessionEngine :=
  { (s.setEngine name st e).takeTxnId with clock }

/-- **What `DROP TABLE` does**: it is refused, or the log refuses its record, or the name is dropped
and its rows, if there is a tier, are closed. -/
theorem applyDropTable_cases (at_ : SystemTimeMicros) (name : Name) (ifExists : Bool) :
    (∃ r, s.applyDropTable at_ name ifExists = (s, r) ∧
        ∃ e, s.catalog.dropTable name at_ = .error e) ∨
      ∃ catalog id s₁, s.catalog.dropTable name at_ = .ok (catalog, id) ∧
        ((∃ e, s.logDdl (.dropTable at_ name) = (s₁, .error e) ∧
            s.applyDropTable at_ name ifExists = (s₁, .error e)) ∨
          s.logDdl (.dropTable at_ name) = (s₁, .ok ()) ∧
            (s₁.tables[name]? = none ∧
                s.applyDropTable at_ name ifExists = ({ s₁ with catalog }, .ok ()) ∨
              ∃ st e clock closed, s₁.tables[name]? = some st ∧
                st.engine.closeAllOpen s₁.clock at_ s₁.nextTxn s₁.writePrincipal =
                  (e, clock, closed) ∧
                s₁.clock.highWater ≤ clock.highWater ∧
                ∃ r, s.applyDropTable at_ name ifExists =
                  (closeRows { s₁ with catalog } name st e clock, r))) := by
  rw [applyDropTable]
  rcases hc : s.catalog.dropTable name at_ with e | ⟨catalog, id⟩
  · left
    cases e <;> exact ⟨_, rfl, _, rfl⟩
  right
  rcases hlog : s.logDdl (.dropTable at_ name) with ⟨s₁, e | u⟩
  · exact ⟨catalog, id, s₁, rfl, .inl ⟨e, rfl, rfl⟩⟩
  refine ⟨catalog, id, s₁, rfl, .inr ⟨rfl, ?_⟩⟩
  rcases hst : s₁.tables[name]? with _ | st
  · exact .inl ⟨rfl, by simp only [hst]⟩
  · rcases hclose : st.engine.closeAllOpen s₁.clock at_ s₁.nextTxn s₁.writePrincipal with
      ⟨e, clock, closed⟩
    have hclock := Engine.le_deleteKeys s₁.clock s₁.nextTxn s₁.writePrincipal st.engine
      (st.engine.residentKeys.filter fun k => (st.engine.asOf k at_).isSome)
    rw [← Engine.closeAllOpen, hclose] at hclock
    refine .inr ⟨st, e, clock, closed, rfl, hclose, hclock, ?_⟩
    simp only [hst, hclose, closeRows]
    cases closed <;> exact ⟨_, rfl⟩

/-- `CREATE INDEX`. -/
def applyCreateIndex (at_ : SystemTimeMicros) (name table : Name) (kind : IndexKind)
    (columns : List Name) (built : Bool) : SessionEngine × Except SessionError Unit :=
  match Catalog.newIndex name table kind columns with
  | .error e => (s, .error (.catalog e))
  | .ok def_ =>
    match s.catalog.createIndex def_ with
    | .error e => (s, .error (.catalog e))
    | .ok catalog =>
      if !s.tables.contains table then (s, .error (.unknownTable table))
      else if (catalog.resolve table at_).isNone then (s, .error (.unknownTable table))
      else if !built then (s, .error .buildIndex)
      else match s.logDdl (.createIndex at_ name table kind columns) with
        | (s, .error e) => (s, .error e)
        | (s, .ok ()) => ({ s with catalog }, .ok ())

/-- `DROP INDEX`. -/
def applyDropIndex (at_ : SystemTimeMicros) (name : Name) (ifExists : Bool) :
    SessionEngine × Except SessionError Unit :=
  match s.catalog.dropIndex name with
  | .error (.unknownIndex n) =>
    (s, if ifExists then .ok () else .error (.catalog (.unknownIndex n)))
  | .error e => (s, .error (.catalog e))
  | .ok catalog =>
    match s.logDdl (.dropIndex at_ name) with
    | (s, .error e) => (s, .error e)
    | (s, .ok ()) => ({ s with catalog }, .ok ())

/-- `CREATE`, `ALTER` and `DROP USER`. -/
def applyUserDdl (at_ : SystemTimeMicros) : DdlStatement → SessionEngine × Except SessionError Unit
  | .createUser name verifier superuser =>
    if name = wirePrincipal then (s, .error (.reservedRole name))
    else if s.users.contains name then (s, .error (.duplicateUser name))
    else match s.logDdl (.createUser at_ name verifier superuser) with
      | (s, .error e) => (s, .error e)
      | (s, .ok ()) => ({ s with users := s.users.insert name ⟨verifier, superuser⟩ }, .ok ())
  | .alterUserPassword name verifier =>
    if name = wirePrincipal then (s, .error (.reservedRole name))
    else if !s.users.contains name then (s, .error (.unknownUser name))
    else match s.logDdl (.alterUser at_ name verifier) with
      | (s, .error e) => (s, .error e)
      | (s, .ok ()) =>
        let superuser := s.users[name]?.any Role.superuser
        ({ s with users := s.users.insert name ⟨verifier, superuser⟩ }, .ok ())
  | .dropUser name ifExists =>
    if name = wirePrincipal then (s, .error (.reservedRole name))
    else if !s.users.contains name then
      (s, if ifExists then .ok () else .error (.unknownUser name))
    else match s.logDdl (.dropUser at_ name) with
      | (s, .error e) => (s, .error e)
      | (s, .ok ()) =>
        ({ s with users := s.users.erase name, access := s.access.forgetRole name }, .ok ())
  | _ => (s, .ok ())

/-- The checks that `GRANT` and `REVOKE` share. -/
def checkGrant (table : Name) (grantee : Grantee) : Except SessionError Unit :=
  if (s.catalog.resolve table s.clock.current).isNone then .error (.unknownTable table)
  else match grantee with
    | .role name =>
      if s.users.contains name then s.requireTableOwner table else .error (.unknownUser name)
    | .everyone => s.requireTableOwner table

/-- `GRANT` and `REVOKE`. -/
def applyGrantDdl (table : Name) (grantee : Grantee) (record : CatalogRecord)
    (change : AccessControl → AccessControl) : SessionEngine × Except SessionError Unit :=
  match s.checkGrant table grantee with
  | .error e => (s, .error e)
  | .ok () =>
    match s.logDdl record with
    | (s, .error e) => (s, .error e)
    | (s, .ok ()) => ({ s with access := change s.access }, .ok ())

/-- A DDL statement. -/
def applyDdl (ddl : DdlStatement) : SessionEngine × Except SessionError Unit :=
  match s.authorizeDdl ddl with
  | .error e => (s, .error e)
  | .ok () =>
    let at_ := s.clock.now.2
    match ddl with
    | .createTable name columns validTime => s.tick.applyCreateTable at_ name columns validTime
    | .dropTable name ifExists => s.tick.applyDropTable at_ name ifExists
    | .createIndex name table kind columns built =>
      s.tick.applyCreateIndex at_ name table kind columns built
    | .dropIndex name ifExists => s.tick.applyDropIndex at_ name ifExists
    | .grant table grantee privileges =>
      s.tick.applyGrantDdl table grantee (.grant at_ table grantee privileges)
        fun a => a.grant table grantee privileges
    | .revoke table grantee privileges =>
      s.tick.applyGrantDdl table grantee (.revoke at_ table grantee privileges)
        fun a => a.revoke table grantee privileges
    | user => s.tick.applyUserDdl at_ user

/-! ### Auto-committed statements -/

/-- A bound DML statement: a point write, or the point writes a statement over several rows stands
for.  An update or delete of an absent key stands for none. -/
inductive DmlStatement where
  /-- One row. -/
  | point (dml : BoundDml)
  /-- Several rows. -/
  | rows (dmls : List BoundDml)
  deriving DecidableEq

/-- The point writes of a statement. -/
def DmlStatement.writes : DmlStatement → List BoundDml
  | .point dml => [dml]
  | .rows dmls => dmls

/-- The privilege a bound write needs. -/
def BoundOp.privilege : BoundOp → Privilege
  | .insert .. => .insert
  | .update .. => .update
  | .delete => .delete

/-- A statement binds at a snapshot if its tables resolve there, and is authorized if the role holds
the privilege of every write. -/
def checkDml (snapshot : SystemTimeMicros) : List BoundDml → Except SessionError Unit
  | [] => .ok ()
  | dml :: dmls =>
    if (s.catalog.resolve dml.table snapshot).isNone then .error (.unknownTable dml.table)
    else match s.authorizeTable dml.table (BoundOp.privilege dml.op) with
      | .error e => .error e
      | .ok () => checkDml snapshot dmls

/-- An auto-committed DML statement. -/
def executeDml (stmt : DmlStatement) : SessionEngine × Except SessionError Unit :=
  match s.refuseIfCommitPoisoned with
  | .error e => (s.observe, .error e)
  | .ok () =>
    match s.checkDml s.clock.observe.2 stmt.writes with
    | .error e => (s.observe, .error e)
    | .ok () =>
      match stmt with
      | .point dml => s.observe.applyDml dml
      | .rows dmls => s.observe.applyWriteGroup dmls

/-- The maintenance commands. -/
inductive AdminCommand where
  /-- `CHECKPOINT`. -/
  | checkpoint
  /-- `FLUSH`. -/
  | flush
  /-- `COMPACT`. -/
  | compact
  deriving DecidableEq, Repr

/-- A maintenance command. -/
def applyAdmin (cmd : AdminCommand) : SessionEngine × Except SessionError Unit :=
  match cmd with
  | .checkpoint => s.checkpoint
  | .flush => s.flush
  | .compact => s.compact

/-- The name of a maintenance command. -/
def AdminCommand.keyword : AdminCommand → String
  | .checkpoint => "CHECKPOINT"
  | .flush => "FLUSH"
  | .compact => "COMPACT"

/-- A statement that is neither a read nor DML: it takes effect at once, also inside a
transaction. -/
inductive Command where
  /-- DDL. -/
  | ddl (stmt : DdlStatement)
  /-- Maintenance. -/
  | admin (cmd : AdminCommand)
  deriving DecidableEq

/-- Run a command. -/
def applyCommand (c : Command) : SessionEngine × Except SessionError Unit :=
  match s.refuseIfCommitPoisoned with
  | .error e => (s, .error e)
  | .ok () =>
    match c with
    | .ddl stmt => s.applyDdl stmt
    | .admin cmd =>
      match s.requireSuperuser cmd.keyword with
      | .error e => (s, .error e)
      | .ok () => s.applyAdmin cmd

/-- A command outside a transaction. -/
def executeCommand (c : Command) : SessionEngine × Except SessionError Unit :=
  s.observe.applyCommand c

end SessionEngine

end SteleDb
