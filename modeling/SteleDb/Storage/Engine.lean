import SteleDb.Storage.ColumnLayout
import SteleDb.Storage.Dml

/-!
# The storage engine of one table

The engine puts the pieces together: the logged write path, the sealed segments and the manifest
that says which of them are live.  A flush seals what is staged and moves the replay floor past the
records it covers; a compaction merges the live segments into one; recovery reads the live
segments, rebuilds the validity index from them and replays the log from the floor.

A compaction lets the segment writer use dictionaries, and the reader refuses those that stand for
too many bytes: such a segment is written and never read again.

The manifest is an append-only file of recovery points.  A record is kept as `none` where a write
of it was torn; reading stops there, and at a record that names more segments than `load` accepts.
-/

namespace SteleDb

/-- The contents of a sealed segment. -/
structure Segment where
  /-- The versions. -/
  versions : List Version
  /-- The tombstones. -/
  retractions : List Close
  /-- The columns of bytes that the writer may store as dictionaries. -/
  packed : List (List (Option Bytes)) := []
  deriving DecidableEq, Repr

/-- The reader accepts every column. -/
def Segment.Readable (s : Segment) : Prop := ∀ cells ∈ s.packed, Expandable true cells

instance (s : Segment) : Decidable s.Readable :=
  inferInstanceAs (Decidable (∀ cells ∈ s.packed, Expandable true cells))

/-- The bytes of the rows and the tombstones. -/
def Segment.rowBytes (s : Segment) : ℕ :=
  (s.versions.map Version.encodedSize).sum + (s.retractions.map Close.encodedSize).sum

/-- The segment files by index. -/
abbrev SegmentFiles := OrdMap ℕ Segment

/-- A record of the manifest. -/
structure RecoveryPoint where
  /-- Where replay resumes: the records before it are in the live segments. -/
  replayFloor : ℕ
  /-- The last record known durable. -/
  durableFence : ℕ
  /-- The live segments. -/
  liveSegments : List ℕ
  deriving DecidableEq, Repr

/-- The manifest file; `none` is a torn record. -/
abbrev Manifest := List (Option RecoveryPoint)

/-- Ceiling on the segments of a manifest record that is read back. -/
def maxLiveSegments : ℕ := 2 ^ 20

/-- A manifest record that is read back. -/
def RecoveryPoint.accepted (p : RecoveryPoint) : Bool := p.liveSegments.length ≤ maxLiveSegments

/-- The last recovery point before the first record that is torn or names too many segments. -/
def Manifest.load (m : Manifest) : Option RecoveryPoint :=
  ((m.takeWhile fun r => r.any RecoveryPoint.accepted).getLast?).join

/-- What survives on the table's disk. -/
structure Disk where
  /-- The log. -/
  log : List WalRecord := []
  /-- Bytes in the last log file. -/
  logFileBytes : ℕ := 0
  /-- The manifest. -/
  manifest : Manifest := []
  /-- The segment files. -/
  segments : SegmentFiles := ∅

/-- Default of the most rows that a row group takes. -/
def defaultFlushRowGroupRows : ℕ := 1024

/-- Errors of the engine. -/
inductive EngineError where
  /-- From the log. -/
  | wal (e : WalError)
  /-- A live segment cannot be read, or a segment cannot be sealed. -/
  | segment
  /-- From the validity index. -/
  | validity (e : ValidityError)
  /-- From the write path. -/
  | dml (e : DmlError)
  /-- From the manifest. -/
  | io
  deriving DecidableEq, Repr

/-- The storage engine of one table. -/
structure Engine where
  /-- The write path, with the log. -/
  writer : DmlWriter := {}
  /-- Delta tier and validity index. -/
  tiers : Tiers := {}
  /-- The versions of the live segments. -/
  sealedVersions : List Version := []
  /-- The live segments, ascending. -/
  liveSegments : List ℕ := []
  /-- Index of the next segment. -/
  nextSegmentIndex : ℕ := 0
  /-- Where recovery resumes replay. -/
  replayFloor : ℕ := 0
  /-- The last fence recorded. -/
  fence : Option ℕ := none
  /-- The manifest file. -/
  manifest : Manifest := []
  /-- The segment files. -/
  segments : SegmentFiles := ∅
  /-- The most rows of a row group. -/
  flushRowGroupRows : ℕ := defaultFlushRowGroupRows
  /-- What the disk does with the next segments. -/
  segmentFaults : Faults := []
  /-- What the disk does with the next manifest records. -/
  manifestFaults : Faults := []

/-! ### Rebuilding the index -/

/-- Insert closes one by one, up to the first that is refused. -/
def insertCloses : ValidityIndex → List Close → ValidityIndex × Except ValidityError Unit
  | ix, [] => (ix, .ok ())
  | ix, c :: cs =>
    match ix.insertClose c with
    | (ix, .ok ()) => insertCloses ix cs
    | (ix, .error e) => (ix, .error e)

/-- The closes a key's chain implies: each version ends where the next one begins, unless a
tombstone has ended it. -/
def supersessions (key : BusinessKey) (chain : VersionChain) (retracted : List VersionId) :
    List Close :=
  let ordered := chain.values
  (ordered.zip ordered.tail).filterMap fun pair =>
    let prior := pair.1
    let next := pair.2
    if (toLex (key, prior.pos) : VersionId) ∈ retracted then none
    else some ⟨key, prior.sysFrom, prior.seq, next.sysFrom, next.provenance⟩

/-- Rebuild the index from the sealed segments alone: tombstones first, then what adjacency
implies. -/
def rebuildIndexFromSegments (versions : List Version) (retractions : List Close)
    (ix : ValidityIndex) : ValidityIndex × Except ValidityError Unit :=
  match insertCloses ix retractions with
  | (ix, .error e) => (ix, .error e)
  | (ix, .ok ()) =>
    insertCloses ix ((groupChains versions).toList.flatMap fun entry =>
      supersessions entry.1 entry.2 (retractions.map Close.target))

namespace Engine

/-! ### Reads and writes -/

/-- What is on the disk. -/
def disk (e : Engine) : Disk :=
  ⟨e.writer.wal.records, e.writer.wal.fileBytes, e.manifest, e.segments⟩

/-- The version of `key` live at `snapshot`. -/
def asOf (e : Engine) (key : BusinessKey) (snapshot : SystemTimeMicros) : Option Version :=
  resolveOpen (e.tiers.delta.candidateVersions key) e.sealedVersions e.tiers.index key snapshot

/-- One insert, update or delete. -/
def write (e : Engine) (w : DmlWrite) : Engine × Except DmlError SystemTimeMicros :=
  let (writer, tiers, r) := e.writer.write e.tiers e.sealedVersions w
  ({ e with writer, tiers }, r)

/-- Start a transaction. -/
def beginGroup (e : Engine) : Engine := { e with writer := e.writer.beginGroup }

/-- Start a bulk load. -/
def beginBulkGroup (e : Engine) : Engine := { e with writer := e.writer.beginBulkGroup }

/-- Log a chunk of a bulk load. -/
def commitBulkChunk (e : Engine) (txnId : TxnId) : Engine × Except DmlError Unit :=
  let (writer, r) := e.writer.commitBulkChunk txnId
  ({ e with writer }, r)

/-- End a bulk load. -/
def endBulkGroup (e : Engine) : Engine := { e with writer := e.writer.endBulkGroup }

/-- Commit the open transaction, as a leg if `txnId` is given. -/
def finishGroup (e : Engine) (txnId : Option TxnId) : Engine × Except DmlError Unit :=
  let (writer, tiers, r) := e.writer.finishGroup e.tiers txnId
  ({ e with writer, tiers }, r)

/-- Take back the open transaction. -/
def abortGroup (e : Engine) : Engine :=
  let (writer, tiers) := e.writer.abortGroup e.tiers
  { e with writer, tiers }

/-- Writes in order, up to the first that is refused. -/
def writeAll : Engine → List DmlWrite → Engine × Except DmlError Unit
  | e, [] => (e, .ok ())
  | e, w :: ws =>
    match e.write w with
    | (e, .ok _) => writeAll e ws
    | (e, .error err) => (e, .error err)

/-- A transaction: its writes, then its commit.  The first refused write aborts it. -/
def groupCommit (e : Engine) (ws : List DmlWrite) (txnId : Option TxnId) :
    Engine × Except DmlError Unit :=
  match e.beginGroup.writeAll ws with
  | (e, .ok ()) => e.finishGroup txnId
  | (e, .error err) => (e.abortGroup, .error err)

/-! ### Segments and manifest -/

/-- Append a record to the manifest. -/
def store (e : Engine) (p : RecoveryPoint) : Engine × Except EngineError Unit :=
  let e' := { e with manifestFaults := e.manifestFaults.tail }
  match e.manifestFaults.next with
  | .done => ({ e' with manifest := e.manifest ++ [some p] }, .ok ())
  | .failed => (e', .error .io)
  | .torn => ({ e' with manifest := e.manifest ++ [none] }, .error .io)

/-- fsync the log. -/
def tick (e : Engine) : Engine × Except EngineError Unit :=
  match e.writer.wal.tick with
  | (wal, .ok ()) => ({ e with writer := { e.writer with wal } }, .ok ())
  | (wal, .error err) => ({ e with writer := { e.writer with wal } }, .error (.wal err))

/-- Write a segment file; a failure leaves no readable file at its index. -/
def sealSegment (e : Engine) (idx : ℕ) (s : Segment) : Engine × Except EngineError Unit :=
  let e' := { e with segmentFaults := e.segmentFaults.tail, segments := e.segments.erase idx }
  match e.segmentFaults.next with
  | .done => ({ e' with segments := e.segments.insert idx s }, .ok ())
  | _ => (e', .error .segment)

/-- Record the durable end of the log. -/
def checkpoint (e : Engine) : Engine × Except EngineError Unit :=
  match e.tick with
  | (e, .error err) => (e, .error err)
  | (e, .ok ()) =>
    let fence := e.writer.wal.durableEnd
    match e.store ⟨e.replayFloor, fence, e.liveSegments⟩ with
    | (e, .error err) => (e, .error err)
    | (e, .ok ()) => ({ e with fence := some fence }, .ok ())

/-- Seal what is staged into a new segment and move the replay floor past it. -/
def flush (e : Engine) : Engine × Except EngineError Unit :=
  match e.tick with
  | (e, .error err) => (e, .error err)
  | (e, .ok ()) =>
    let fence := e.writer.wal.durableEnd
    let versions := e.tiers.delta.stagedVersions
    let retractions := e.tiers.delta.stagedRetractions
    if versions.isEmpty ∧ retractions.isEmpty then
      match e.store ⟨e.replayFloor, fence, e.liveSegments⟩ with
      | (e, .error err) => (e, .error err)
      | (e, .ok ()) => ({ e with fence := some fence }, .ok ())
    else
      let idx := e.nextSegmentIndex
      match e.sealSegment idx { versions, retractions } with
      | (e, .error err) => (e, .error err)
      | (e, .ok ()) =>
        match e.store ⟨fence, fence, e.liveSegments ++ [idx]⟩ with
        | (e, .error err) => (e, .error err)
        | (e, .ok ()) =>
          ({ e with
              sealedVersions := e.sealedVersions ++ versions
              liveSegments := e.liveSegments ++ [idx]
              nextSegmentIndex := idx + 1
              replayFloor := fence
              fence := some fence
              tiers := { e.tiers with delta := e.tiers.delta.discardFlushed } }, .ok ())

/-- Read a segment in full; `none` if it is missing or the reader refuses it. -/
def readSegment (files : SegmentFiles) (i : ℕ) : Option Segment :=
  files[i]?.filter fun s => s.Readable

theorem readSegment_eq_some {files : SegmentFiles} {i : ℕ} {s : Segment} :
    readSegment files i = some s ↔ files[i]? = some s ∧ s.Readable := by
  simp [readSegment, Option.filter_eq_some_iff]

/-- Read segments in full. -/
def readSegments (files : SegmentFiles) : List ℕ → Option Segment
  | [] => some { versions := [], retractions := [] }
  | i :: is => do
    let s ← readSegment files i
    let rest ← readSegments files is
    some { versions := s.versions ++ rest.versions
           retractions := s.retractions ++ rest.retractions }

/-- The segment that a compaction makes of what it has read: sorted, and with dictionaries. -/
def mergedSegment (e : Engine) (read : Segment) : Segment :=
  let versions := read.versions.mergeSort fun a b => a.id ≤ b.id
  let retractions := read.retractions.mergeSort fun a b => a.target ≤ b.target
  { versions, retractions
    packed := bytesColumns e.writer.validTime (rowGroupsOf e.flushRowGroupRows versions)
      retractions }

/-- Merge the live segments into one and retire them. -/
def compact (e : Engine) : Engine × Except EngineError Unit :=
  if e.liveSegments.length < 2 then (e, .ok ())
  else match e.tick with
    | (e, .error err) => (e, .error err)
    | (e, .ok ()) =>
      let fence := e.writer.wal.durableEnd
      match readSegments e.segments e.liveSegments with
      | none => (e, .error .segment)
      | some read =>
        let output := e.mergedSegment read
        let idx := e.nextSegmentIndex
        match e.sealSegment idx output with
        | (e, .error err) => (e, .error err)
        | (e, .ok ()) =>
          match e.store ⟨e.replayFloor, fence, [idx]⟩ with
          | (e, .error err) => (e, .error err)
          | (e, .ok ()) =>
            ({ e with
                sealedVersions := output.versions
                liveSegments := [idx]
                nextSegmentIndex := idx + 1
                fence := some fence
                segments := e.liveSegments.foldl (fun files i => files.erase i) e.segments },
              .ok ())

/-! ### Recovery -/

/-- Boot from a disk: read the live segments, rebuild the index, replay the log from the floor.
Segment files that are not live are removed. -/
def recoverWithCommits (disk : Disk) (validTime : Bool) (committed : CommittedTxns) :
    Except EngineError Engine :=
  let recovery := disk.manifest.load
  let floor := (recovery.map RecoveryPoint.replayFloor).getD 0
  let fence := (recovery.map RecoveryPoint.durableFence).getD 0
  let live : List ℕ :=
    (KeyedMap.ofList ((recovery.map RecoveryPoint.liveSegments).getD []) :
      KeyedMap fun i : ℕ => i).values
  let segments := disk.segments.filter fun i _ => i ∈ live
  match readSegments segments live with
  | none => .error .segment
  | some merged =>
    match rebuildIndexFromSegments merged.versions merged.retractions {} with
    | (_, .error e) => .error (.validity e)
    | (index, .ok ()) =>
      match recoverReplay committed fence floor { delta := {}, index } (disk.log.drop floor) with
      | (_, .error e) => .error (.dml e)
      | (tiers, .ok ()) =>
        .ok
          { writer := { wal := { records := disk.log, fileBytes := disk.logFileBytes
                                 durableEnd := disk.log.length }, validTime }
            tiers
            sealedVersions := merged.versions
            liveSegments := live
            nextSegmentIndex := (live.getLast?.map (· + 1)).getD 0
            replayFloor := floor
            fence := recovery.map RecoveryPoint.durableFence
            manifest := disk.manifest
            segments }

/-- Boot from the disk of a table that takes part in no transaction of several tables. -/
def recover (disk : Disk) (validTime : Bool) : Except EngineError Engine :=
  recoverWithCommits disk validTime .all

end Engine

/-! ### Faults -/

/-- What the disk does with the next operations of one table. -/
structure TierFaults where
  /-- Appends to the log. -/
  appends : Faults := []
  /-- Fsyncs of the log. -/
  syncs : Faults := []
  /-- Spills of the delta tier. -/
  deltaSpills : Faults := []
  /-- Spills of the validity index. -/
  indexSpills : Faults := []
  /-- Segments. -/
  segments : Faults := []
  /-- Manifest records. -/
  manifest : Faults := []

/-- Set what the disk does next. -/
def Engine.withFaults (e : Engine) (f : TierFaults) : Engine :=
  { e with
    writer := { e.writer with
      wal := { e.writer.wal with appendFaults := f.appends, syncFaults := f.syncs } }
    tiers :=
      { delta := { e.tiers.delta with faults := f.deltaSpills }
        index := { e.tiers.index with faults := f.indexSpills } }
    segmentFaults := f.segments
    manifestFaults := f.manifest }

end SteleDb
