import SteleDb.Session.Catalog
import SteleDb.Session.Clock
import SteleDb.Session.Log
import SteleDb.Session.RowCodec
import SteleDb.Storage.Engine

/-!
# The session engine: writes

The session engine holds the catalog, the clock and the storage engine of every table, and routes
statements to them.  This module is the write side.  A write reaches it bound: its table, its key
and its cells are byte strings, and a statement that stands for several rows (a multi-row insert, a
predicate update or delete, a merge) is the list of its point writes.

Every statement and every transaction commits in the same way.  Its writes are applied to the
tables in memory, each stamped with its own reading of the clock; then each table logs its part as
one record tagged with the transaction; then a record in the commit log makes the transaction
count.  A write index remembers when each key was last written, for conflict detection, and is
pruned below the oldest snapshot an open transaction reads at.

The access structures of secondary indexes, metrics and the hash chain over the commit log are left
out.
-/

namespace SteleDb

/-! ### Data -/

/-- A record of the commit log. -/
structure CommitRecord where
  /-- The transaction that counts. -/
  txnId : TxnId
  /-- The clock's mark when it committed. -/
  commitTs : SystemTimeMicros
  deriving DecidableEq, Repr

/-- A record of the catalog log. -/
inductive CatalogRecord where
  /-- A table was created, on a namespace of the disk. -/
  | createTable (at_ : SystemTimeMicros) (ns : ℕ) (name : Name) (columns : List ColumnDef)
      (validTime : Option ValidTimeSpec) (owner : Option Name)
  /-- A table was dropped. -/
  | dropTable (at_ : SystemTimeMicros) (name : Name)
  /-- An index was created. -/
  | createIndex (at_ : SystemTimeMicros) (name table : Name) (kind : IndexKind)
      (columns : List Name)
  /-- An index was dropped. -/
  | dropIndex (at_ : SystemTimeMicros) (name : Name)
  /-- A role was created. -/
  | createUser (at_ : SystemTimeMicros) (name : Name) (verifier : ScramVerifier) (superuser : Bool)
  /-- A role's credential was replaced. -/
  | alterUser (at_ : SystemTimeMicros) (name : Name) (verifier : ScramVerifier)
  /-- A role was dropped. -/
  | dropUser (at_ : SystemTimeMicros) (name : Name)
  /-- Privileges were granted. -/
  | grant (at_ : SystemTimeMicros) (table : Name) (grantee : Grantee) (privileges : List Privilege)
  /-- Privileges were revoked. -/
  | revoke (at_ : SystemTimeMicros) (table : Name) (grantee : Grantee) (privileges : List Privilege)
  deriving DecidableEq

/-- Errors of the session engine. -/
inductive SessionError where
  /-- The catalog refused the statement. -/
  | catalog (e : CatalogError)
  /-- From a table's storage engine. -/
  | storage (e : EngineError)
  /-- The catalog log could not be written or read. -/
  | catalogLog
  /-- The commit log could not be written, now or earlier. -/
  | commitLog
  /-- A stored payload does not match the schema. -/
  | rowCodec (e : RowCodecError)
  /-- A row of a bulk load does not bind. -/
  | copy
  /-- The access structure of an index could not be built. -/
  | buildIndex
  /-- The table is not live. -/
  | unknownTable (table : Name)
  /-- A name is created again with another valid-time policy than its tier has. -/
  | validTimePolicyChange (table : Name)
  /-- The table has other columns than when the write was bound. -/
  | schemaChanged (table : Name) (live bound : ℕ)
  /-- A key of the transaction was written after the snapshot it was staged under. -/
  | conflict
  /-- The role may not do this. -/
  | permissionDenied (role : Name) (action : String) (object : Option Name)
  /-- The bootstrap role is reserved. -/
  | reservedRole (role : Name)
  /-- The role exists. -/
  | duplicateUser (role : Name)
  /-- The role does not exist. -/
  | unknownUser (role : Name)
  deriving DecidableEq, Repr

/-- A table: its storage engine, its policy and its slice of the disk. -/
structure TableState where
  /-- The storage engine. -/
  engine : Engine
  /-- The policy the engine was opened with. -/
  validTime : Bool
  /-- The slice of the disk. -/
  ns : ℕ

/-- `b"stele"`: the principal of writes with no connection behind them, and the built-in
superuser. -/
def wirePrincipal : Name := [115, 116, 101, 108, 101]

/-- A row of a table: the key of the write index. -/
abbrev RowId := Name ×ₗ BusinessKey

/-- The session engine. -/
structure SessionEngine where
  /-- Schemas by name and system time. -/
  catalog : Catalog := {}
  /-- The commit clock, shared by all tables. -/
  clock : MonotonicClock
  /-- The tables, those of dropped names included. -/
  tables : OrdMap Name TableState := ∅
  /-- The next slice of the disk. -/
  nextNamespace : ℕ := 0
  /-- The next transaction id. -/
  nextTxn : TxnId := 1
  /-- The commit log. -/
  commitLog : AppendLog CommitRecord := {}
  /-- The payloads in the catalog log. -/
  catalogLog : AppendLog Bytes := {}
  /-- A commit record was lost after its legs were logged: every statement is refused. -/
  commitPoisoned : Bool := false
  /-- When each row was last written. -/
  writeIndex : OrdMap RowId SystemTimeMicros := ∅
  /-- The snapshots of the open transactions. -/
  openSnapshots : Multiset SystemTimeMicros := 0
  /-- The floor of the last prune. -/
  prunedBelow : SystemTimeMicros := 0
  /-- The roles. -/
  users : OrdMap Name Role := ∅
  /-- The access policy. -/
  access : AccessControl := {}
  /-- The principal of the connection served now. -/
  writePrincipal : Name := wirePrincipal

/-- What a bound point write does; cells are in their stored encoding. -/
inductive BoundOp where
  /-- Add a row. -/
  | insert (values : Cells) (valid : Option ValidInterval)
  /-- Replace some cells of a row, by their position after the key. -/
  | update (assignments : List (ℕ × Option Bytes)) (valid : Option ValidInterval)
  /-- Remove a row. -/
  | delete
  deriving DecidableEq

/-- A bound point write. -/
structure BoundDml where
  /-- The table written. -/
  table : Name
  /-- The key written. -/
  key : BusinessKey
  /-- What is written. -/
  op : BoundOp
  deriving DecidableEq

/-- The row a write goes to. -/
def BoundDml.row (dml : BoundDml) : RowId := toLex (dml.table, dml.key)

/-! ### Deletes over a whole table -/

namespace Engine

/-- The keys that have a version. -/
def residentKeys (e : Engine) : List BusinessKey :=
  (KeyedMap.ofList ((e.tiers.delta.stagedVersions ++ e.sealedVersions).map Version.businessKey) :
    KeyedMap fun k : BusinessKey => k).values

/-- Delete keys one by one, each at its own reading of the clock. -/
def deleteKeys (e : Engine) (clock : MonotonicClock) (txnId : TxnId) (principal : Bytes) :
    List BusinessKey → Engine × MonotonicClock × Except DmlError Unit
  | [] => (e, clock, .ok ())
  | k :: ks =>
    match e.write ⟨clock.now.2, k, txnId, principal, .delete⟩ with
    | (e, .error err) => (e, clock.now.1, .error err)
    | (e, .ok _) => e.deleteKeys clock.now.1 txnId principal ks

/-- Deleting keys only moves the clock on. -/
theorem le_deleteKeys (clock : MonotonicClock) (txnId : TxnId) (principal : Bytes) (e : Engine)
    (ks : List BusinessKey) :
    clock.highWater ≤ (e.deleteKeys clock txnId principal ks).2.1.highWater := by
  induction ks generalizing e clock with
  | nil => exact le_rfl
  | cons k ks ih =>
    unfold deleteKeys
    split
    · exact clock.le_now
    · exact clock.le_now.trans (ih _ _)

/-- Close every row open at `at_`. -/
def closeAllOpen (e : Engine) (clock : MonotonicClock) (at_ : SystemTimeMicros) (txnId : TxnId)
    (principal : Bytes) : Engine × MonotonicClock × Except DmlError Unit :=
  e.deleteKeys clock txnId principal (e.residentKeys.filter fun k => (e.asOf k at_).isSome)

/-- The keys whose current version, read at `now`, was opened by `at_`. -/
def staleKeys (e : Engine) (at_ now : SystemTimeMicros) : List BusinessKey :=
  e.residentKeys.filter fun k => (e.asOf k now).any fun v => v.sysFrom ≤ at_

/-- The greatest commit instant and transaction id of any record. -/
def recoveryMarks (e : Engine) : SystemTimeMicros × TxnId :=
  let provenances := (e.tiers.delta.stagedVersions ++ e.sealedVersions).map Version.provenance ++
    e.tiers.index.materialize.toList.map fun entry => entry.2.closedBy
  provenances.foldl (fun m p => (max m.1 p.committedAt, max m.2 p.txnId)) (0, 0)

end Engine

/-! ### Authorization -/

/-- The name of a privilege. -/
def Privilege.keyword : Privilege → String
  | .select => "SELECT"
  | .insert => "INSERT"
  | .update => "UPDATE"
  | .delete => "DELETE"

namespace SessionEngine

variable (s : SessionEngine)

/-- The role a statement runs as. -/
def currentRole : Name := s.writePrincipal

/-- The role passes every check. -/
def isSuperuser : Bool :=
  s.currentRole = wirePrincipal || s.users[s.currentRole]?.any Role.superuser

/-- Only superusers pass. -/
def requireSuperuser (what : String) : Except SessionError Unit :=
  if s.isSuperuser then .ok () else .error (.permissionDenied s.currentRole what none)

/-- Only superusers and the owner of the table pass. -/
def requireTableOwner (table : Name) : Except SessionError Unit :=
  if s.isSuperuser then .ok ()
  else if s.access.owners[table]? = some s.currentRole then .ok ()
  else .error (.permissionDenied s.currentRole "administer" (some table))

/-- Superusers, the owner and the roles that hold the privilege pass. -/
def authorizeTable (table : Name) (privilege : Privilege) : Except SessionError Unit :=
  if s.isSuperuser then .ok ()
  else if s.access.owners[table]? = some s.currentRole then .ok ()
  else if s.access.holds s.currentRole table privilege then .ok ()
  else .error (.permissionDenied s.currentRole privilege.keyword (some table))

/-- Nothing runs after a lost commit record. -/
def refuseIfCommitPoisoned : Except SessionError Unit :=
  if s.commitPoisoned then .error .commitLog else .ok ()

/-- The table, if its name is live. -/
def tableMut (table : Name) : Except SessionError TableState :=
  if (s.catalog.resolve table s.clock.current).isNone then .error (.unknownTable table)
  else match s.tables[table]? with
    | none => .error (.unknownTable table)
    | some st => .ok st

/-- The engine after a fresh read snapshot is taken. -/
def observe : SessionEngine := { s with clock := s.clock.observe.1 }

/-- The engine after a commit time is taken. -/
def tick : SessionEngine := { s with clock := s.clock.now.1 }

/-- Put a storage engine back. -/
def setEngine (table : Name) (st : TableState) (e : Engine) : SessionEngine :=
  { s with tables := s.tables.insert table { st with engine := e } }

end SessionEngine

/-! ### Point writes -/

/-- The privilege a write needs. -/
def DmlOp.privilege : DmlOp → Privilege
  | .insert .. => .insert
  | .update .. => .update
  | .delete => .delete

/-- The write gets as far as reading the clock: its payload passes the valid-time policy. -/
def DmlOp.readsClock (validTime : Bool) : DmlOp → Bool
  | .insert valid payload _ => (framePayload validTime valid payload).isOk
  | .update valid payload _ => (framePayload validTime valid payload).isOk
  | .delete => true

namespace SessionEngine

variable (s : SessionEngine)

/-- Insert, update or delete one key of a table. -/
def write (table : Name) (key : BusinessKey) (op : DmlOp) (txnId : TxnId) (principal : Bytes) :
    SessionEngine × Except SessionError Unit :=
  match s.refuseIfCommitPoisoned with
  | .error e => (s, .error e)
  | .ok () =>
    match s.authorizeTable table op.privilege with
    | .error e => (s, .error e)
    | .ok () =>
      match s.tableMut table with
      | .error e => (s, .error e)
      | .ok st =>
        let s' := if op.readsClock st.engine.writer.validTime then s.tick else s
        match st.engine.write ⟨s.clock.now.2, key, txnId, principal, op⟩ with
        | (e, .ok _) => (s'.setEngine table st e, .ok ())
        | (e, .error err) => (s'.setEngine table st e, .error (.storage (.dml err)))

/-- The number of value columns of a table. -/
def valueColumnCount (table : Name) : Except SessionError ℕ :=
  match s.catalog.resolve table s.clock.current with
  | none => .error (.unknownTable table)
  | some schema => .ok (schema.columns.length - 1)

/-- The value cells of a key's live row, all `NULL` if it has none. -/
def liveValueCells (table : Name) (key : BusinessKey) (valueCount : ℕ) :
    Except SessionError Cells :=
  if valueCount = 0 then .ok []
  else match s.tables[table]? with
    | none => .error (.unknownTable table)
    | some st =>
      let stored := (st.engine.asOf key s.clock.current).bind Version.payload
      let payload := stored.bind fun bytes =>
        match unframePayload st.validTime bytes with
        | .ok (_, user) => some user
        | .error _ => none
      match decodePayload valueCount payload with
      | .ok cells => .ok cells
      | .error e => .error (.rowCodec e)

/-- What a bound write asks of the storage engine: the cells of an update are merged into the live
row. -/
def resolveDml (dml : BoundDml) : Except SessionError DmlOp :=
  match dml.op with
  | .insert values valid =>
    match s.valueColumnCount dml.table with
    | .error e => .error e
    | .ok count =>
      if values.length ≠ count then .error (.schemaChanged dml.table count values.length)
      else .ok (.insert valid (encodePayload values) 0)
  | .update assignments valid =>
    match s.valueColumnCount dml.table with
    | .error e => .error e
    | .ok count =>
      match assignments.find? fun a => count ≤ a.1 with
      | some a => .error (.schemaChanged dml.table count (a.1 + 1))
      | none =>
        match s.liveValueCells dml.table dml.key count with
        | .error e => .error e
        | .ok cells =>
          let cells := assignments.foldl (fun cells a => cells.set a.1 a.2) cells
          .ok (.update valid (encodePayload cells) 0)
  | .delete => .ok .delete

/-- Apply one bound write and note it in the write index. -/
def applyBoundDml (dml : BoundDml) (txnId : TxnId) (principal : Bytes) :
    SessionEngine × Except SessionError Unit :=
  match s.resolveDml dml with
  | .error e => (s, .error e)
  | .ok op =>
    match s.write dml.table dml.key op txnId principal with
    | (s, .error e) => (s, .error e)
    | (s, .ok ()) =>
      ({ s with writeIndex := s.writeIndex.insert dml.row s.clock.current }, .ok ())

variable {s} in
theorem applyBoundDml_ok {s' : SessionEngine} {dml : BoundDml} {txnId : TxnId} {principal : Bytes}
    (h : s.applyBoundDml dml txnId principal = (s', .ok ())) :
    ∃ op s₁, s.resolveDml dml = .ok op ∧
      s.write dml.table dml.key op txnId principal = (s₁, .ok ()) ∧
      s' = { s₁ with writeIndex := s₁.writeIndex.insert dml.row s₁.clock.current } := by
  unfold applyBoundDml at h
  rcases hop : s.resolveDml dml with e | op
  · rw [hop] at h; cases h
  rcases hw : s.write dml.table dml.key op txnId principal with ⟨s₁, e | _⟩
  · simp only [hop, hw] at h; cases h
  · simp only [hop, hw] at h
    cases h
    exact ⟨op, s₁, rfl, hw, rfl⟩

variable {s} in
theorem applyBoundDml_error {s' : SessionEngine} {dml : BoundDml} {txnId : TxnId}
    {principal : Bytes} {e : SessionError}
    (h : s.applyBoundDml dml txnId principal = (s', .error e)) :
    s' = s ∨ ∃ op, s.resolveDml dml = .ok op ∧
      s.write dml.table dml.key op txnId principal = (s', .error e) := by
  unfold applyBoundDml at h
  rcases hop : s.resolveDml dml with e' | op
  · simp only [hop] at h
    cases h
    exact .inl rfl
  rcases hw : s.write dml.table dml.key op txnId principal with ⟨s₁, e' | _⟩
  · simp only [hop, hw] at h
    cases h
    exact .inr ⟨op, rfl, hw⟩
  · simp only [hop, hw] at h; cases h

/-! ### Group commit -/

/-- Put a table in group mode the first time a group writes to it. -/
def touch (touched : List Name) (table : Name) : Except SessionError (SessionEngine × List Name) :=
  if table ∈ touched then .ok (s, touched)
  else match s.tableMut table with
    | .error e => .error e
    | .ok st => .ok (s.setEngine table st st.engine.beginGroup, touched ++ [table])

/-- Apply the writes of a group in order, up to the first that is refused. -/
def applyGroup (txnId : TxnId) (principal : Bytes) :
    SessionEngine → List Name → List BoundDml → SessionEngine × List Name × Except SessionError Unit
  | s, touched, [] => (s, touched, .ok ())
  | s, touched, dml :: dmls =>
    match s.touch touched dml.table with
    | .error e => (s, touched, .error e)
    | .ok (s, touched) =>
      match s.applyBoundDml dml txnId principal with
      | (s, .error e) => (s, touched, .error e)
      | (s, .ok ()) => applyGroup txnId principal s touched dmls

/-- Take back the open group of a table. -/
def abortGroup (table : Name) : SessionEngine :=
  match s.tableMut table with
  | .error _ => s
  | .ok st => s.setEngine table st st.engine.abortGroup

/-- Take back the open groups of tables. -/
def abortGroups (touched : List Name) : SessionEngine := touched.foldl abortGroup s

/-- Log that a transaction counts.  If the record is lost the session stops. -/
def recordCommit (txnId : TxnId) : SessionEngine × Except SessionError Unit :=
  match s.commitLog.append ⟨txnId, s.clock.current⟩ with
  | (log, true) => ({ s with commitLog := log }, .ok ())
  | (log, false) => ({ s with commitLog := log, commitPoisoned := true }, .error .commitLog)

/-- Commit a table's leg of a transaction. -/
def commitLeg (txnId : TxnId) (table : Name) : SessionEngine × Except SessionError Unit :=
  match s.tableMut table with
  | .error e => (s, .error e)
  | .ok st =>
    match st.engine.finishGroup (some txnId) with
    | (e, .ok ()) => (s.setEngine table st e, .ok ())
    | (e, .error err) => (s.setEngine table st e, .error (.storage (.dml err)))

/-- Commit the legs of a transaction one by one; after a failure the rest is taken back. -/
def commitLegs (txnId : TxnId) :
    SessionEngine → List Name → SessionEngine × Except SessionError Unit
  | s, [] => (s, .ok ())
  | s, table :: tables =>
    match s.commitLeg txnId table with
    | (s, .ok ()) => commitLegs txnId s tables
    | (s, .error e) => (s.abortGroups tables, .error e)

/-- Commit the group on every table it touched. -/
def finishGroupCommit (txnId : TxnId) (touched : List Name) :
    SessionEngine × Except SessionError Unit :=
  if touched = [] then (s, .ok ())
  else match s.commitLegs txnId touched with
    | (s, .error e) => (s, .error e)
    | (s, .ok ()) => s.recordCommit txnId

/-- Hand out a transaction id. -/
def takeTxnId : SessionEngine := { s with nextTxn := s.nextTxn + 1 }

/-- Apply the writes of a group under a new transaction id and commit it, or take it back. -/
def runGroup (dmls : List BoundDml) : SessionEngine × Except SessionError Unit :=
  match applyGroup s.nextTxn s.writePrincipal s.takeTxnId [] dmls with
  | (s', touched, .ok ()) => s'.finishGroupCommit s.nextTxn touched
  | (s, touched, .error e) => (s.abortGroups touched, .error e)

/-- The oldest snapshot of an open transaction. -/
def oldestLiveSnapshot : Option SystemTimeMicros := (s.openSnapshots.sort (· ≤ ·)).head?

/-- Forget the writes that can conflict with no open transaction's snapshot. -/
def pruneWriteIndex : SessionEngine :=
  match s.oldestLiveSnapshot with
  | none => { s with writeIndex := ∅, prunedBelow := s.clock.current }
  | some floor =>
    if s.prunedBelow < floor then
      { s with writeIndex := s.writeIndex.filter fun _ committedAt => floor ≤ committedAt
               prunedBelow := floor }
    else s

/-! ### Auto-committed statements -/

/-- An auto-committed point write. -/
def applyDml (dml : BoundDml) : SessionEngine × Except SessionError Unit :=
  match s.runGroup [dml] with
  | (s, .error e) => (s, .error e)
  | (s, .ok ()) => (s.pruneWriteIndex, .ok ())

/-- An auto-committed statement that stands for several point writes. -/
def applyWriteGroup (dmls : List BoundDml) : SessionEngine × Except SessionError Unit :=
  if dmls = [] then (s, .ok ())
  else
    let (s, r) := s.runGroup dmls
    (s.pruneWriteIndex, r)

end SessionEngine

end SteleDb
