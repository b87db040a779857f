import SteleDb.Session.Statements

/-!
# The session engine: faults, crashes and recovery

What the disk does with the operations to come is part of the state, and can be set at any time
(`withFaults`).  A crash keeps of every log the records an fsync has covered and any number of the
later ones.

Recovery replays the catalog log, reads from the commit log which transactions count, recovers the
storage of every name, and moves the clock and the transaction ids past everything it found.  Last,
it closes the rows that a drop of their table should have closed.
-/

namespace SteleDb

/-! ### Faults -/

/-- What the disk does with the next operations of a session. -/
structure DiskFaults where
  /-- The tables. -/
  tier : Name → TierFaults := fun _ => {}
  /-- Appends to the commit log. -/
  commitAppends : Faults := []
  /-- Fsyncs of the commit log. -/
  commitSyncs : Faults := []
  /-- Appends to the catalog log. -/
  catalogAppends : Faults := []
  /-- Fsyncs of the catalog log. -/
  catalogSyncs : Faults := []

/-- Set what the disk does next. -/
def SessionEngine.withFaults (s : SessionEngine) (f : DiskFaults) : SessionEngine :=
  { s with
    tables := s.tables.map fun name st => { st with engine := st.engine.withFaults (f.tier name) }
    commitLog := { s.commitLog with appendFaults := f.commitAppends, syncFaults := f.commitSyncs }
    catalogLog :=
      { s.catalogLog with appendFaults := f.catalogAppends, syncFaults := f.catalogSyncs } }

/-! ### Crashes -/

/-- What survives of a session. -/
structure SessionDisk where
  /-- The payloads in the catalog log. -/
  catalogLog : List (Option Bytes) := []
  /-- The commit log. -/
  commitLog : List (Option CommitRecord) := []
  /-- The tables, by their slice of the disk. -/
  tiers : OrdMap ℕ Disk := ∅

/-- How many records a crash keeps of each log. -/
structure Cut where
  /-- Of the catalog log. -/
  catalog : ℕ
  /-- Of the commit log. -/
  commit : ℕ
  /-- Of the log of each table. -/
  tier : Name → ℕ

/-- The table's disk with the first `n` records of its log. -/
def Engine.crash (e : Engine) (n : ℕ) : Disk := { e.disk with log := e.disk.log.take n }

namespace SessionEngine

/-- The crash keeps what was fsynced. -/
def Survives (s : SessionEngine) (cut : Cut) : Prop :=
  s.catalogLog.durable ≤ cut.catalog ∧ s.commitLog.durable ≤ cut.commit ∧
    ∀ name st, s.tables[name]? = some st → st.engine.writer.wal.durableEnd ≤ cut.tier name

/-- What a crash leaves on the disk. -/
def crash (s : SessionEngine) (cut : Cut) : SessionDisk where
  catalogLog := s.catalogLog.frames.take cut.catalog
  commitLog := s.commitLog.frames.take cut.commit
  tiers := OrdMap.insertAll ∅
    (s.tables.toList.map fun entry => (entry.2.ns, entry.2.engine.crash (cut.tier entry.1)))

end SessionEngine

/-! ### Recovery -/

/-- What the catalog log says. -/
structure ReplayedCatalog where
  /-- The schemas. -/
  catalog : Catalog := {}
  /-- The roles. -/
  users : OrdMap Name Role := ∅
  /-- The access policy. -/
  access : AccessControl := {}
  /-- Slice of the disk and policy of every name, of its latest creation. -/
  tiers : OrdMap Name (ℕ × Bool) := ∅
  /-- The latest drop of every name. -/
  latestDrop : OrdMap Name SystemTimeMicros := ∅
  /-- One past the greatest slice of the disk. -/
  nextNamespace : ℕ := 0
  /-- The greatest instant of a DDL statement. -/
  maxCommit : SystemTimeMicros := 0

namespace ReplayedCatalog

/-- Apply one record of the catalog log. -/
def fold (r : ReplayedCatalog) : CatalogRecord → Except SessionError ReplayedCatalog
  | .createTable at_ ns name columns validTime owner =>
    match r.catalog.createTable name columns validTime at_ with
    | .error e => .error (.catalog e)
    | .ok (catalog, _) =>
      let access := r.access.forgetTable name
      .ok { r with
        catalog
        access := { access with
          owners := match owner with
            | some owner => access.owners.insert name owner
            | none => access.owners }
        tiers := r.tiers.insert name (ns, validTime.isSome)
        nextNamespace := max r.nextNamespace (ns + 1)
        maxCommit := max r.maxCommit at_ }
  | .dropTable at_ name =>
    match r.catalog.dropTable name at_ with
    | .error e => .error (.catalog e)
    | .ok (catalog, _) =>
      .ok { r with
        catalog
        access := r.access.forgetTable name
        latestDrop := r.latestDrop.insert name at_
        maxCommit := max r.maxCommit at_ }
  | .createIndex at_ name table kind columns =>
    match Catalog.newIndex name table kind columns with
    | .error e => .error (.catalog e)
    | .ok def_ =>
      match r.catalog.createIndex def_ with
      | .error e => .error (.catalog e)
      | .ok catalog => .ok { r with catalog, maxCommit := max r.maxCommit at_ }
  | .dropIndex at_ name =>
    match r.catalog.dropIndex name with
    | .error e => .error (.catalog e)
    | .ok catalog => .ok { r with catalog, maxCommit := max r.maxCommit at_ }
  | .createUser at_ name verifier superuser =>
    .ok { r with
      users := r.users.insert name ⟨verifier, superuser⟩
      maxCommit := max r.maxCommit at_ }
  | .alterUser at_ name verifier =>
    .ok { r with
      users := r.users.insert name ⟨verifier, r.users[name]?.any Role.superuser⟩
      maxCommit := max r.maxCommit at_ }
  | .dropUser at_ name =>
    .ok { r with
      users := r.users.erase name
      access := r.access.forgetRole name
      maxCommit := max r.maxCommit at_ }
  | .grant at_ table grantee privileges =>
    .ok { r with
      access := r.access.grant table grantee privileges
      maxCommit := max r.maxCommit at_ }
  | .revoke at_ table grantee privileges =>
    .ok { r with
      access := r.access.revoke table grantee privileges
      maxCommit := max r.maxCommit at_ }

/-- Apply the records of the catalog log in order. -/
def foldAll : ReplayedCatalog → List CatalogRecord → Except SessionError ReplayedCatalog
  | r, [] => .ok r
  | r, record :: records =>
    match r.fold record with
    | .error e => .error e
    | .ok r => foldAll r records

/-- Read the payloads of a catalog log, and apply their records. -/
def replay (frames : List (Option Bytes)) : Except SessionError ReplayedCatalog :=
  match (AppendLog.replay frames).mapM CatalogRecord.readPayload with
  | .error _ => .error .catalogLog
  | .ok records => foldAll {} records

end ReplayedCatalog

/-- Recover the storage of names one by one. -/
def reopenTiers (tiers : OrdMap ℕ Disk) (committed : CommittedTxns) :
    List (Name × ℕ × Bool) → Except SessionError (List (Name × TableState))
  | [] => .ok []
  | (name, ns, validTime) :: names =>
    match Engine.recoverWithCommits (tiers[ns]?.getD {}) validTime committed with
    | .error e => .error (.storage e)
    | .ok engine =>
      match reopenTiers tiers committed names with
      | .error e => .error e
      | .ok tables => .ok ((name, ⟨engine, validTime, ns⟩) :: tables)

namespace SessionEngine

/-- A session over an empty disk. -/
def opened (inner : ℕ → SystemTimeMicros) : SessionEngine := { clock := { inner } }

/-- Read a disk back, up to the closes a drop may have left to do. -/
def reopen (disk : SessionDisk) (inner : ℕ → SystemTimeMicros) :
    Except SessionError (SessionEngine × OrdMap Name SystemTimeMicros) :=
  let commits := AppendLog.replay disk.commitLog
  let committed := CommittedTxns.only (commits.map CommitRecord.txnId)
  match ReplayedCatalog.replay disk.catalogLog with
  | .error e => .error e
  | .ok r =>
    match reopenTiers disk.tiers committed (r.tiers.toList.map fun e => (e.1, e.2.1, e.2.2)) with
    | .error e => .error e
    | .ok tables =>
      let marks := tables.map fun entry => entry.2.engine.recoveryMarks
      let maxCommit := marks.foldl (fun m mark => max m mark.1) r.maxCommit
      let maxTxnId := (marks.map Prod.snd ++ commits.map CommitRecord.txnId).foldl max 0
      .ok ({ catalog := r.catalog
             clock := MonotonicClock.advanceTo { inner } maxCommit
             tables := OrdMap.insertAll ∅ tables
             nextNamespace := r.nextNamespace
             nextTxn := saturatingAdd maxTxnId 1
             commitLog := { frames := disk.commitLog, durable := disk.commitLog.length }
             catalogLog := { frames := disk.catalogLog, durable := disk.catalogLog.length }
             users := r.users
             access := r.access }, r.latestDrop)

/-- Close the rows that drops of their tables should have closed, reading each table at `now`. -/
def closeDroppedEras (now : SystemTimeMicros) :
    SessionEngine → List (Name × SystemTimeMicros) → SessionEngine × Except SessionError Unit
  | s, [] => (s, .ok ())
  | s, (name, dropAt) :: drops =>
    match s.tables[name]? with
    | none => closeDroppedEras now s drops
    | some st =>
      let stale := st.engine.staleKeys dropAt now
      let (e, clock, r) := st.engine.deleteKeys s.clock s.nextTxn wirePrincipal stale
      let s := { s.setEngine name st e with clock }
      match r with
      | .error err => (s, .error (.storage (.dml err)))
      | .ok () =>
        closeDroppedEras now
          { s with nextTxn := if stale = [] then s.nextTxn else saturatingAdd s.nextTxn 1 } drops

/-- One drop: a table that has no tier is passed over, and otherwise its engine, the clock and the
next transaction id change. -/
theorem closeDroppedEras_cons (now : SystemTimeMicros) (s : SessionEngine) (name : Name)
    (dropAt : SystemTimeMicros) (drops : List (Name × SystemTimeMicros)) :
    closeDroppedEras now s ((name, dropAt) :: drops) = closeDroppedEras now s drops ∨
      ∃ st e clock, (∃ r, closeDroppedEras now s ((name, dropAt) :: drops) =
          ({ s.setEngine name st e with clock }, r)) ∨
        ∃ nextTxn, closeDroppedEras now s ((name, dropAt) :: drops) =
          closeDroppedEras now { s.setEngine name st e with clock, nextTxn } drops := by
  rw [closeDroppedEras]
  rcases s.tables[name]? with _ | st
  · exact .inl rfl
  right
  rcases hdel : st.engine.deleteKeys s.clock s.nextTxn wirePrincipal
    (st.engine.staleKeys dropAt now) with ⟨e, clock, r⟩
  refine ⟨st, e, clock, ?_⟩
  simp only [hdel]
  rcases r with err | u
  · exact .inl ⟨_, rfl⟩
  · exact .inr ⟨_, rfl⟩

/-- Boot from a disk, on which the operations of the recovery itself fare as `faults` says. -/
def recover (disk : SessionDisk) (inner : ℕ → SystemTimeMicros) (faults : DiskFaults) :
    Except SessionError (SessionEngine × Except SessionError Unit) :=
  match reopen disk inner with
  | .error e => .error e
  | .ok (s, drops) => .ok (closeDroppedEras s.clock.current (s.withFaults faults) drops.toList)

end SessionEngine

end SteleDb
