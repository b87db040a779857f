import SteleDb.Lib.CrashSteps
import SteleDb.Storage.EngineRun

/-!
# Flush and compaction, disk operation by disk operation

A checkpoint, a flush and a compaction are sequences of disk operations with updates of the engine's
memory between them.  Any operation can fail, which ends the call, and the machine can crash between
any two of them.

What an operation has done need not have reached the disk: records of the manifest count from the
fsync of the file on, the contents of a segment file from its fsync, and a created or removed file
from the next fsync of the directory.  A `Host` is an engine with this knowledge, `Host.Crash` says
what a crash can leave.

* `Host.exec` : one operation, for each outcome the disk can give it;
* `Host.ops` : the operations of a call, in the order of the source;
* `Host.upkeep_engine` : when no operation fails, they do what `Engine.call` does.
-/

namespace SteleDb

/-- A call that changes what is on disk and not what the table holds. -/
inductive Upkeep where
  /-- Seal what is staged. -/
  | flush
  /-- Merge the live segments. -/
  | compact
  /-- Record the durable end of the log. -/
  | checkpoint
  deriving DecidableEq

/-- The call of the engine. -/
def Upkeep.call : Upkeep → Call
  | .flush => .flush
  | .compact => .compact
  | .checkpoint => .checkpoint

/-- A step of such a call: an operation of the disk, or an update of the engine in memory. -/
inductive DiskOp where
  /-- fsync the log. -/
  | syncLog
  /-- Read what is staged, spilled rows included. -/
  | readStaged
  /-- Read a live segment. -/
  | readSegment (i : ℕ)
  /-- Remove a segment file; a failure is ignored. -/
  | removeSegment (i : ℕ)
  /-- Create a segment file. -/
  | createSegment (i : ℕ)
  /-- Append the contents of a segment file. -/
  | writeSegment (i : ℕ) (s : Segment)
  /-- fsync a segment file. -/
  | syncSegment (i : ℕ)
  /-- fsync the directory. -/
  | syncDir
  /-- Create the manifest file. -/
  | createManifest
  /-- fsync the directory after that; on failure the file is removed again. -/
  | fenceManifest
  /-- Append a record to the manifest. -/
  | appendManifest (p : RecoveryPoint)
  /-- fsync the manifest. -/
  | syncManifest
  /-- Note the durable end of the log. -/
  | noteFence
  /-- Adopt the flushed segment. -/
  | adoptFlush
  /-- Adopt the merged segment, which has these versions. -/
  | adoptMerge (versions : List Version)

/-- An engine, and which of its files a crash leaves alone. -/
structure Host where
  /-- The engine, with the files as it sees them. -/
  engine : Engine := {}
  /-- The manifest file exists. -/
  manifestMade : Bool := false
  /-- The manifest file's directory entry is durable. -/
  manifestFenced : Bool := false
  /-- The number of manifest records that are fsynced. -/
  manifestSynced : ℕ := 0
  /-- The segment files with contents that are not fsynced. -/
  unsynced : List ℕ := []
  /-- The segment files created or removed since the last fsync of the directory. -/
  unfenced : List ℕ := []

namespace Host

open Engine

/-! ### Operations -/

/-- One step, for an outcome of the disk, and whether it succeeded. -/
def exec (h : Host) : DiskOp → IoOutcome → Host × Bool
  | .syncLog, _ =>
    match h.engine.tick with
    | (e, .ok ()) => ({ h with engine := e }, true)
    | (e, .error _) => ({ h with engine := e }, false)
  | .readStaged, o => (h, o = .done)
  | .readSegment i, o => (h, o = .done ∧ (readSegment h.engine.segments i).isSome)
  | .removeSegment i, .done =>
    ({ h with engine := { h.engine with segments := h.engine.segments.erase i }
              unfenced := i :: h.unfenced }, true)
  -- the source ignores what the removal returns
  | .removeSegment _, _ => (h, true)
  | .createSegment i, o =>
    -- the file must be new
    if h.engine.segments[i]?.isSome ∨ o = .failed then (h, false)
    else ({ h with unsynced := i :: h.unsynced, unfenced := i :: h.unfenced }, o = .done)
  | .writeSegment i s, .done =>
    ({ h with engine := { h.engine with segments := h.engine.segments.insert i s }
              unsynced := i :: h.unsynced }, true)
  | .writeSegment i _, _ =>
    ({ h with engine := { h.engine with segments := h.engine.segments.erase i }
              unsynced := i :: h.unsynced }, false)
  | .syncSegment i, .done => ({ h with unsynced := h.unsynced.filter (· ≠ i) }, true)
  | .syncSegment _, _ => (h, false)
  | .syncDir, .done => ({ h with unfenced := [], manifestFenced := h.manifestMade }, true)
  | .syncDir, _ => (h, false)
  | .createManifest, o =>
    -- a torn creation leaves an empty manifest and reports the failure
    if o = .failed then (h, false)
    else ({ h with engine := { h.engine with manifest := [] }
                   manifestMade := true, manifestFenced := false, manifestSynced := 0 }, o = .done)
  | .fenceManifest, .done => ({ h with unfenced := [], manifestFenced := h.manifestMade }, true)
  | .fenceManifest, .failed =>
    ({ h with engine := { h.engine with manifest := [] }
              manifestMade := false, manifestFenced := false, manifestSynced := 0 }, false)
  -- the removal fails as well, and the manifest stays
  | .fenceManifest, .torn => (h, false)
  | .appendManifest p, .done =>
    ({ h with engine := { h.engine with manifest := h.engine.manifest ++ [some p] } }, true)
  | .appendManifest _, .failed => (h, false)
  | .appendManifest _, .torn =>
    ({ h with engine := { h.engine with manifest := h.engine.manifest ++ [none] } }, false)
  | .syncManifest, .done => ({ h with manifestSynced := h.engine.manifest.length }, true)
  | .syncManifest, _ => (h, false)
  | .noteFence, _ =>
    ({ h with engine := { h.engine with fence := some h.engine.writer.wal.durableEnd } }, true)
  | .adoptFlush, _ =>
    -- what the segment has leaves the delta tier, and the log is replayed from here on
    let e := h.engine
    let fence := e.writer.wal.durableEnd
    ({ h with engine := { e with
        sealedVersions := e.sealedVersions ++ e.tiers.delta.stagedVersions
        liveSegments := e.liveSegments ++ [e.nextSegmentIndex]
        nextSegmentIndex := e.nextSegmentIndex + 1
        replayFloor := fence
        fence := some fence
        tiers := { e.tiers with delta := e.tiers.delta.discardFlushed } } }, true)
  | .adoptMerge versions, _ =>
    let e := h.engine
    ({ h with engine := { e with
        sealedVersions := versions
        liveSegments := [e.nextSegmentIndex]
        nextSegmentIndex := e.nextSegmentIndex + 1
        fence := some e.writer.wal.durableEnd } }, true)

/-- Write a segment file and make it durable. -/
def sealOps (i : ℕ) (s : Segment) : List DiskOp :=
  [.removeSegment i, .createSegment i, .writeSegment i s, .syncSegment i, .syncDir]

/-- Store a record in the manifest, which may have to be made first. -/
def storeOps (made : Bool) (p : RecoveryPoint) : List DiskOp :=
  (if made then [] else [.createManifest, .fenceManifest]) ++ [.appendManifest p, .syncManifest]

/-- Something is staged. -/
def staged (h : Host) : Bool :=
  !(h.engine.tiers.delta.stagedVersions.isEmpty && h.engine.tiers.delta.stagedRetractions.isEmpty)

/-- The steps of a call after the log is fsynced up to `fence`. -/
def opsAfterSync (h : Host) (fence : ℕ) : Upkeep → List DiskOp
  | .checkpoint =>
    storeOps h.manifestMade ⟨h.engine.replayFloor, fence, h.engine.liveSegments⟩ ++ [.noteFence]
  | .flush =>
    let e := h.engine
    let idx := e.nextSegmentIndex
    .readStaged ::
      -- with nothing staged a flush only stores the fence
      if h.staged then
        sealOps idx { versions := e.tiers.delta.stagedVersions
                      retractions := e.tiers.delta.stagedRetractions } ++
          (storeOps h.manifestMade ⟨fence, fence, e.liveSegments ++ [idx]⟩ ++ [.adoptFlush])
      else storeOps h.manifestMade ⟨e.replayFloor, fence, e.liveSegments⟩ ++ [.noteFence]
  | .compact =>
    let e := h.engine
    let idx := e.nextSegmentIndex
    e.liveSegments.map .readSegment ++
      match readSegments e.segments e.liveSegments with
      -- a segment that cannot be read fails the call before anything is written
      | none => []
      | some read =>
        let output := e.mergedSegment read
        sealOps idx output ++
          (storeOps h.manifestMade ⟨e.replayFloor, fence, [idx]⟩ ++
            -- the inputs go only after the record that no longer names them is stored
            (.adoptMerge output.versions :: e.liveSegments.map .removeSegment))

/-- The steps of a call; the fsync of the log makes all of it durable. -/
def ops (h : Host) (u : Upkeep) : List DiskOp :=
  if u = .compact ∧ h.engine.liveSegments.length < 2 then []
  else .syncLog :: h.opsAfterSync h.engine.writer.wal.records.length u

/-- The host after a call is cut off after `n` steps, or before by a step that failed. -/
def cut (h : Host) (u : Upkeep) (os : Faults) (n : ℕ) : Host :=
  (runOps exec .done h ((h.ops u).take n) os).1

/-- The host after a call. -/
def upkeep (h : Host) (u : Upkeep) (os : Faults) : Host := (runOps exec .done h (h.ops u) os).1

/-- The host after a write. -/
def write (h : Host) (w : DmlWrite) : Host := { h with engine := (h.engine.write w).1 }

/-- The host after a transaction. -/
def group (h : Host) (ws : List DmlWrite) (txnId : Option TxnId) : Host :=
  { h with engine := (h.engine.groupCommit ws txnId).1 }

/-! ### Crashes -/

/-- What a crash can leave of the files.  The log keeps what is fsynced and a part of the rest, the
manifest too, each with a torn record possibly at its end; the manifest file may be gone if its
directory entry is not durable.  Segment files keep what is fsynced of contents and directory, and
the others can have any contents. -/
structure Crash (h : Host) (d : Disk) (made : Bool) : Prop where
  log : ∃ n, h.engine.writer.wal.durableEnd ≤ n ∧ n ≤ h.engine.writer.wal.records.length ∧
    (d.log = h.engine.writer.wal.records.take n ∨
      d.log = h.engine.writer.wal.records.take n ++ [.torn])
  manifest : (∃ n, h.manifestSynced ≤ n ∧ made = h.manifestMade ∧
      ((n ≤ h.engine.manifest.length ∧ d.manifest = h.engine.manifest.take n) ∨
        (n < h.engine.manifest.length ∧ d.manifest = h.engine.manifest.take n ++ [none]))) ∨
    (h.manifestFenced = false ∧ d.manifest = [])
  segments : ∀ i, i ∉ h.unsynced → i ∉ h.unfenced → d.segments[i]? = h.engine.segments[i]?

/-- The host of an engine recovered from a disk, all of which is durable; that the files of other
segments were removed is not.  The fault scripts are those of the log from now on. -/
def boot (d : Disk) (made : Bool) (e : Engine) (appends syncs : Faults) : Host where
  engine := { e with writer := { e.writer with wal := { e.writer.wal with
    appendFaults := appends, syncFaults := syncs } } }
  manifestMade := made
  manifestFenced := made
  manifestSynced := d.manifest.length
  unfenced := (d.segments.toList.map Prod.fst).filter (· ∉ e.liveSegments)

/-- The host of a new table. -/
def fresh (validTime : Bool) (appends syncs : Faults) : Host where
  engine := { writer := { wal := { appendFaults := appends, syncFaults := syncs }, validTime } }

/-! ### Without failures -/

/-- The host after a record is stored without failure. -/
def stored (h : Host) (p : RecoveryPoint) : Host :=
  { h with
    engine := { h.engine with manifest := h.engine.manifest ++ [some p] }
    manifestMade := true
    manifestFenced := h.manifestFenced || !h.manifestMade
    manifestSynced := h.engine.manifest.length + 1
    unfenced := if h.manifestMade then h.unfenced else [] }

variable {h : Host}

theorem runOps_storeOps (hmade : h.manifestMade = false → h.engine.manifest = [])
    (p : RecoveryPoint) (rest : List DiskOp) :
    runOps exec .done h (storeOps h.manifestMade p ++ rest) [] =
      runOps exec .done (h.stored p) rest [] := by
  obtain ⟨e, made, fenced, synced, unsynced, unfenced⟩ := h
  cases made with
  | false =>
    have hnil : e.manifest = [] := hmade rfl
    simp [storeOps, runOps, exec, stored, hnil]
  | true => simp [storeOps, runOps, exec, stored]

/-- The host after a segment is sealed without failure. -/
def sealed (h : Host) (i : ℕ) (s : Segment) : Host :=
  { h with
    engine := { h.engine with segments := h.engine.segments.insert i s }
    manifestFenced := h.manifestMade
    unsynced := h.unsynced.filter (· ≠ i)
    unfenced := [] }

theorem runOps_sealOps (i : ℕ) (s : Segment) (rest : List DiskOp) :
    runOps exec .done h (sealOps i s ++ rest) [] = runOps exec .done (h.sealed i s) rest [] := by
  have hins : (h.engine.segments.erase i).insert i s = h.engine.segments.insert i s := by
    refine OrdMap.ext fun j => ?_
    simp only [OrdMap.getElem?_insert, OrdMap.getElem?_erase]
    split_ifs <;> rfl
  simp [sealOps, runOps, exec, sealed, hins]

theorem runOps_sealOps_storeOps (hmade : h.manifestMade = false → h.engine.manifest = []) (i : ℕ)
    (s : Segment) (p : RecoveryPoint) (rest : List DiskOp) :
    runOps exec .done h (sealOps i s ++ (storeOps h.manifestMade p ++ rest)) [] =
      runOps exec .done ((h.sealed i s).stored p) rest [] := by
  rw [runOps_sealOps]
  exact runOps_storeOps (h := h.sealed i s) hmade p rest

theorem runOps_readStaged (rest : List DiskOp) :
    runOps exec .done h (.readStaged :: rest) [] = runOps exec .done h rest [] := rfl

theorem runOps_readSegments {is : List ℕ}
    (his : ∀ i ∈ is, (readSegment h.engine.segments i).isSome)
    (rest : List DiskOp) :
    runOps exec .done h (is.map .readSegment ++ rest) [] = runOps exec .done h rest [] := by
  induction is with
  | nil => rfl
  | cons i is ih =>
    have hi := his i List.mem_cons_self
    simp only [List.map_cons, List.cons_append, runOps, exec, hi]
    simpa using ih fun j hj => his j (List.mem_cons_of_mem _ hj)

theorem engine_removeSegments (is : List ℕ) :
    (runOps exec .done h (is.map .removeSegment) []).1.engine =
      { h.engine with segments := is.foldl (fun files i => files.erase i) h.engine.segments } := by
  induction is generalizing h with
  | nil => rfl
  | cons i is ih => exact ih (h := (h.exec (.removeSegment i) .done).1)

theorem isSome_of_readSegments {files : SegmentFiles} {is : List ℕ} {s : Segment}
    (hs : readSegments files is = some s) : ∀ i ∈ is, (readSegment files i).isSome := by
  intro i hi
  by_contra hnone
  rw [Bool.not_eq_true, Option.isSome_eq_false_iff, Option.isNone_iff_eq_none] at hnone
  rw [readSegments_eq_none hi hnone] at hs
  cases hs

theorem runOps_readSegments_none {is : List ℕ} (his : readSegments h.engine.segments is = none) :
    runOps exec .done h (is.map .readSegment) [] = (h, false) := by
  induction is with
  | nil => cases his
  | cons i is ih =>
    simp only [List.map_cons, runOps, exec]
    cases hi : readSegment h.engine.segments i with
    | none => simp
    | some s =>
      have hrest : readSegments h.engine.segments is = none := by
        rw [readSegments, hi] at his
        cases hr : readSegments h.engine.segments is with
        | none => rfl
        | some s => rw [hr] at his; cases his
      simpa using ih hrest

/-- The log's fsync covers all of it. -/
theorem durableEnd_of_tick {e e' : Engine} {u : Unit} (ht : e.tick = (e', .ok u)) :
    ∃ w, e' = { e with writer := { e.writer with wal := w } } ∧ w.durableEnd = w.records.length ∧
      w.records = e.writer.wal.records := by
  rcases e.writer.wal.tick_cases with ⟨w, err, htick, -⟩ | ⟨w, htick, hext, hend⟩
  · rw [Engine.tick, htick] at ht
    cases ht
  · rw [Engine.tick, htick] at ht
    cases ht
    exact ⟨w, rfl, by rw [hend, hext.same], hext.same⟩

theorem store_eq {e : Engine} (hf : e.manifestFaults = []) (p : RecoveryPoint) :
    e.store p = ({ e with manifest := e.manifest ++ [some p] }, .ok ()) := by
  simp only [Engine.store, hf, Faults.next, List.tail_nil]

theorem store_eq_of_insert {e : Engine} (hf : e.manifestFaults = []) {i : ℕ} {s : Segment}
    {p : RecoveryPoint} : ({ e with segments := e.segments.insert i s } : Engine).store p =
      ({ e with segments := e.segments.insert i s, manifest := e.manifest ++ [some p] }, .ok ()) :=
  store_eq (e := { e with segments := e.segments.insert i s }) hf p

theorem sealSegment_eq {e : Engine} (hf : e.segmentFaults = []) (i : ℕ) (s : Segment) :
    e.sealSegment i s = ({ e with segments := e.segments.insert i s }, .ok ()) := by
  simp only [Engine.sealSegment, hf, Faults.next, List.tail_nil]

/-- **The steps of a call are the call**: when the disk does not fail, they leave the engine that
the call leaves. -/
theorem upkeep_engine (hmade : h.manifestMade = false → h.engine.manifest = [])
    (hseg : h.engine.segmentFaults = []) (hman : h.engine.manifestFaults = []) (u : Upkeep) :
    (h.upkeep u []).engine = h.engine.call u.call := by
  by_cases hfew : u = .compact ∧ h.engine.liveSegments.length < 2
  · obtain ⟨rfl, hlen⟩ := hfew
    simp only [upkeep, ops, hlen, and_self, if_true, Upkeep.call, Engine.call, Engine.compact]
    rfl
  simp only [upkeep, ops, if_neg hfew, runOps, exec]
  rcases ht : h.engine.tick with ⟨e', err | _⟩
  · cases u with
    | checkpoint => simp only [Upkeep.call, Engine.call, Engine.checkpoint, ht]
    | flush => simp only [Upkeep.call, Engine.call, Engine.flush, ht]
    | compact =>
      simp only [Upkeep.call, Engine.call, Engine.compact, ht, if_neg fun hlen => hfew ⟨rfl, hlen⟩]
  · obtain ⟨hops, hmade', hseg', hman', hlive⟩ :
        h.opsAfterSync h.engine.writer.wal.records.length u =
          opsAfterSync { h with engine := e' } e'.writer.wal.durableEnd u ∧
        (h.manifestMade = false → e'.manifest = []) ∧ e'.segmentFaults = [] ∧
        e'.manifestFaults = [] ∧ e'.liveSegments = h.engine.liveSegments := by
      obtain ⟨w, rfl, hend, hrec⟩ := durableEnd_of_tick ht
      rw [show ({ h.engine with writer := { h.engine.writer with wal := w } } : Engine
        ).writer.wal.durableEnd = _ from hend.trans (congrArg List.length hrec)]
      exact ⟨rfl, hmade, hseg, hman, rfl⟩
    simp only [hops, List.tail_nil]
    cases u with
    | checkpoint =>
      simp only [Upkeep.call, Engine.call, Engine.checkpoint, ht, store_eq hman', opsAfterSync]
      rw [runOps_storeOps (h := { h with engine := e' }) hmade']
      rfl
    | flush =>
      simp only [Upkeep.call, Engine.call, Engine.flush, ht, opsAfterSync]
      by_cases hst : staged { h with engine := e' } = true
      · have hne : ¬ (e'.tiers.delta.stagedVersions.isEmpty = true ∧
            e'.tiers.delta.stagedRetractions.isEmpty = true) := by
          intro hempty
          simp [staged, hempty] at hst
        simp only [if_pos hst, if_neg hne, sealSegment_eq hseg', runOps_readStaged]
        rw [runOps_sealOps_storeOps (h := { h with engine := e' }) hmade',
          store_eq_of_insert hman']
        rfl
      · have hempty : e'.tiers.delta.stagedVersions.isEmpty = true ∧
            e'.tiers.delta.stagedRetractions.isEmpty = true := by
          simpa [staged] using hst
        simp only [if_neg hst, if_pos hempty, store_eq hman', runOps_readStaged]
        rw [runOps_storeOps (h := { h with engine := e' }) hmade']
        rfl
    | compact =>
      have hlen : ¬ h.engine.liveSegments.length < 2 := fun hlen => hfew ⟨rfl, hlen⟩
      simp only [Upkeep.call, Engine.call, Engine.compact, ht, opsAfterSync, if_neg hlen]
      cases hread : readSegments e'.segments e'.liveSegments with
      | none =>
        simp only [List.append_nil]
        rw [runOps_readSegments_none (h := { h with engine := e' }) hread]
      | some merged =>
        simp only [sealSegment_eq hseg']
        rw [runOps_readSegments (h := { h with engine := e' }) (isSome_of_readSegments hread),
          runOps_sealOps_storeOps (h := { h with engine := e' }) hmade',
          store_eq_of_insert hman']
        exact engine_removeSegments _

end Host

end SteleDb
