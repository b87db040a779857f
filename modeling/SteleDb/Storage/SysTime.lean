import SteleDb.Storage.Merge

/-!
# System-time versioning

The write path of one table: stamp the commit instant, resolve the key's live version across both
tiers, and turn the write into a redo set.  An insert is a single `Redo.insert`, an update a
`Redo.close` of the live version followed by the `Redo.insert` of the new one, a delete a
`Redo.retract`.  Forward writes, group commits and crash replay all go through `applyRedos`.

The clock is the caller's: every write takes the reading it is stamped with.
-/

namespace SteleDb

/-- One entry of a resolved write. -/
inductive Redo where
  /-- Stage a new open version. -/
  | insert (version : Version)
  /-- End the version a newer one supersedes. -/
  | close (close : Close)
  /-- End a version with no successor: materialise the end and stage a tombstone. -/
  | retract (close : Close)
  deriving DecidableEq, Repr

/-- The entry passes the preflight of its frame. -/
def Redo.Encodable : Redo → Prop
  | .insert v => v.Encodable
  | .close c => c.Encodable
  | .retract c => c.Encodable

/-- Errors of the write path. -/
inductive SysTimeError where
  /-- The key already has a live version. -/
  | keyExists
  /-- The key has no live version. -/
  | keyNotFound
  /-- The clock reached the `+∞` sentinel. -/
  | timeExhausted
  /-- The clock read earlier than a commit already stamped. -/
  | clockRegressed
  /-- From the delta tier. -/
  | delta (e : DeltaError)
  /-- From the validity index. -/
  | validity (e : ValidityError)
  deriving DecidableEq, Repr

/-- The writer of one table: the last commit it stamped. -/
structure SysTimeWriter where
  /-- High-water mark of the stamped commits. -/
  lastCommit : Option SystemTimeMicros := none
  deriving DecidableEq, Repr

/-- The two structures a write goes to. -/
structure Tiers where
  /-- Staged versions and tombstones. -/
  delta : Delta := {}
  /-- Ends of periods. -/
  index : ValidityIndex := {}

namespace SysTimeWriter

/-- Stamp the next commit with the clock's reading, unchanged: a repeated reading is accepted, an
earlier one and the sentinel are refused. -/
def nextCommitTs (w : SysTimeWriter) (now : SystemTimeMicros) :
    SysTimeWriter × Except SysTimeError SystemTimeMicros :=
  if w.lastCommit.any fun prev => now < prev then (w, .error .clockRegressed)
  else if systemTimeOpen ≤ now then (w, .error .timeExhausted)
  else ({ lastCommit := some now }, .ok now)

end SysTimeWriter

/-- The close that ends `prior` at `commit`; it carries the closing transaction's provenance. -/
def closeOf (key : BusinessKey) (prior : Version) (commit : SystemTimeMicros) (txnId : TxnId)
    (principal : Bytes) : Close :=
  { businessKey := key, sysFrom := prior.sysFrom, seq := prior.seq, sysTo := commit
    closedBy := ⟨txnId, commit, principal⟩ }

/-- The open version a write of `key` at `commit` asserts. -/
def openVersion (key : BusinessKey) (commit : SystemTimeMicros) (seq : Seq)
    (payload : Option Bytes) (txnId : TxnId) (principal : Bytes) : Version :=
  Version.mkOpen key commit seq ⟨txnId, commit, principal⟩ payload

/-- The sealed versions of a key. -/
def versionsFor (sealedVersions : List Version) (key : BusinessKey) : List Version :=
  sealedVersions.filter fun v => v.businessKey = key

/-- The version of `key` live at `at_`, over delta tier, sealed segments and index. -/
def resolveLive (t : Tiers) (sealedVersions : List Version) (key : BusinessKey)
    (at_ : SystemTimeMicros) : Option Version :=
  resolveOpen (t.delta.candidateVersions key) (versionsFor sealedVersions key) t.index key at_

/-- Apply one entry of a redo set.  The close of a retraction comes first, so that a refused close
leaves no tombstone. -/
def applyRedo (allowSpill : Bool) (t : Tiers) : Redo → Tiers × Except SysTimeError Unit
  | .insert v =>
    match t.delta.insertInner v allowSpill with
    | (d, .ok ()) => ({ t with delta := d }, .ok ())
    | (d, .error e) => ({ t with delta := d }, .error (.delta e))
  | .close c =>
    match t.index.insertCloseInner c allowSpill with
    | (ix, .ok ()) => ({ t with index := ix }, .ok ())
    | (ix, .error e) => ({ t with index := ix }, .error (.validity e))
  | .retract c =>
    match t.index.insertCloseInner c allowSpill with
    | (ix, .ok ()) => ({ delta := t.delta.stageRetraction c, index := ix }, .ok ())
    | (ix, .error e) => ({ t with index := ix }, .error (.validity e))

/-- Apply a redo set in order, up to the first entry that fails. -/
def applyRedos (allowSpill : Bool) : Tiers → List Redo → Tiers × Except SysTimeError Unit
  | t, [] => (t, .ok ())
  | t, r :: rs =>
    match applyRedo allowSpill t r with
    | (t, .ok ()) => applyRedos allowSpill t rs
    | (t, .error e) => (t, .error e)

/-- Apply a redo set; the tiers may spill. -/
def apply : Tiers → List Redo → Tiers × Except SysTimeError Unit := applyRedos true

/-- Apply a redo set of a transaction: nothing spills, so that it can be undone. -/
def applyResident : Tiers → List Redo → Tiers × Except SysTimeError Unit := applyRedos false

/-- Take back one entry of a redo set; an entry that is not resident is skipped. -/
def undoRedo (t : Tiers) : Redo → Tiers
  | .insert v => { t with delta := t.delta.removeVersion v.id }
  | .close c => { t with index := t.index.removeClose c.target }
  | .retract c =>
    { delta := t.delta.removeRetraction c.target, index := t.index.removeClose c.target }

/-- Take back a redo set, last entry first. -/
def undo (t : Tiers) (redos : List Redo) : Tiers := redos.reverse.foldl undoRedo t

namespace SysTimeWriter

/-- Resolve an insert into its redo set, without applying it. -/
def stageInsert (w : SysTimeWriter) (now : SystemTimeMicros) (t : Tiers)
    (sealedVersions : List Version) (key : BusinessKey) (payload : Option Bytes) (seq : Seq)
    (txnId : TxnId) (principal : Bytes) :
    SysTimeWriter × Except SysTimeError (SystemTimeMicros × List Redo) :=
  match w.nextCommitTs now with
  | (w, .error e) => (w, .error e)
  | (w, .ok commit) =>
    match resolveLive t sealedVersions key commit with
    | some _ => (w, .error .keyExists)
    | none =>
      (w, .ok (commit, [.insert (openVersion key commit seq payload txnId principal)]))

/-- Resolve an update into its redo set, without applying it. -/
def stageUpdate (w : SysTimeWriter) (now : SystemTimeMicros) (t : Tiers)
    (sealedVersions : List Version) (key : BusinessKey) (payload : Option Bytes) (seq : Seq)
    (txnId : TxnId) (principal : Bytes) :
    SysTimeWriter × Except SysTimeError (SystemTimeMicros × List Redo) :=
  match w.nextCommitTs now with
  | (w, .error e) => (w, .error e)
  | (w, .ok commit) =>
    match resolveLive t sealedVersions key commit with
    | none => (w, .error .keyNotFound)
    | some prior =>
      (w, .ok (commit, [.close (closeOf key prior commit txnId principal),
        .insert (openVersion key commit seq payload txnId principal)]))

/-- Resolve a delete into its redo set, without applying it. -/
def stageDelete (w : SysTimeWriter) (now : SystemTimeMicros) (t : Tiers)
    (sealedVersions : List Version) (key : BusinessKey) (txnId : TxnId) (principal : Bytes) :
    SysTimeWriter × Except SysTimeError (SystemTimeMicros × List Redo) :=
  match w.nextCommitTs now with
  | (w, .error e) => (w, .error e)
  | (w, .ok commit) =>
    match resolveLive t sealedVersions key commit with
    | none => (w, .error .keyNotFound)
    | some prior =>
      (w, .ok (commit, [.retract (closeOf key prior commit txnId principal)]))

/-- Apply what a `stage` function resolved, and return the commit. -/
def applyStaged (t : Tiers)
    (staged : SysTimeWriter × Except SysTimeError (SystemTimeMicros × List Redo)) :
    SysTimeWriter × Tiers × Except SysTimeError SystemTimeMicros :=
  match staged with
  | (w, .error e) => (w, t, .error e)
  | (w, .ok (commit, redos)) =>
    match apply t redos with
    | (t, .error e) => (w, t, .error e)
    | (t, .ok ()) => (w, t, .ok commit)

/-- Open the first version of a key. -/
def insert (w : SysTimeWriter) (now : SystemTimeMicros) (t : Tiers)
    (sealedVersions : List Version) (key : BusinessKey) (payload : Option Bytes) (seq : Seq)
    (txnId : TxnId) (principal : Bytes) :
    SysTimeWriter × Tiers × Except SysTimeError SystemTimeMicros :=
  applyStaged t (w.stageInsert now t sealedVersions key payload seq txnId principal)

/-- Supersede the live version of a key. -/
def update (w : SysTimeWriter) (now : SystemTimeMicros) (t : Tiers)
    (sealedVersions : List Version) (key : BusinessKey) (payload : Option Bytes) (seq : Seq)
    (txnId : TxnId) (principal : Bytes) :
    SysTimeWriter × Tiers × Except SysTimeError SystemTimeMicros :=
  applyStaged t (w.stageUpdate now t sealedVersions key payload seq txnId principal)

/-- Close the live version of a key without a successor. -/
def delete (w : SysTimeWriter) (now : SystemTimeMicros) (t : Tiers)
    (sealedVersions : List Version) (key : BusinessKey) (txnId : TxnId) (principal : Bytes) :
    SysTimeWriter × Tiers × Except SysTimeError SystemTimeMicros :=
  applyStaged t (w.stageDelete now t sealedVersions key txnId principal)

end SysTimeWriter

end SteleDb
