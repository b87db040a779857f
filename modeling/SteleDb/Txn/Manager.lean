import SteleDb.Session.CommitLog
import SteleDb.Storage.WalLog

/-!
# The transaction manager

One cursor on the system-time axis orders snapshots and commits.  `begin_` lifts it to the clock and
hands it out; `commit` takes the next instant above it, appends a record to a write-ahead log and
fsyncs before anything in memory moves.  The records are chained by their digests.  After a crash
`recover` checks the chain and takes cursor, sequence number and head from the last record.

Clocks, interleavings, failures of the disk and crashes are arbitrary:

* `Process.calls` : the calls of one process, `TxnManager.lives` : processes with crashes between;
* `CommitLog.Follows` : records that go on with a chain, `CommitLog.verifyFrom_of_follows` : they
  verify;
* `Committing` : what a commit can do.
-/

namespace SteleDb

open CommitLog

/-- A transaction that has begun. -/
structure Transaction where
  /-- Its number. -/
  txnId : TxnId
  /-- The instant it reads at. -/
  snapshot : SystemTimeMicros
  /-- The keys it writes. -/
  writes : List BusinessKey := []
  deriving DecidableEq, Repr

/-- Declare that the transaction writes a key. -/
def Transaction.write (txn : Transaction) (key : BusinessKey) : Transaction :=
  if key ∈ txn.writes then txn else { txn with writes := key :: txn.writes }

/-- An accepted commit. -/
structure Committed where
  /-- The transaction. -/
  txnId : TxnId
  /-- The instant it committed at. -/
  commitTs : SystemTimeMicros
  /-- Its number among the commits. -/
  seq : U64
  deriving DecidableEq, Repr

/-- Why a commit is refused. -/
inductive TxnError where
  /-- Another commit wrote one of the keys after the snapshot. -/
  | conflict
  /-- The commit time would reach the end of the axis. -/
  | timeExhausted
  /-- The record is not logged, or its fsync failed. -/
  | wal (e : WalError)
  deriving DecidableEq, Repr

/-- Counters that recovery resumes. -/
inductive Counter where
  /-- Transaction numbers. -/
  | txnId
  /-- Commit numbers. -/
  | seq
  deriving DecidableEq, Repr

/-- Why a manager does not start. -/
inductive ChainRecoverError where
  /-- A record of the log cannot be read. -/
  | replay (index : ℕ)
  /-- The chain does not verify. -/
  | chain (e : ChainError)
  /-- A counter is at its end. -/
  | counterExhausted (counter : Counter)
  deriving DecidableEq

/-- The manager, with the log it writes. -/
structure TxnManager where
  /-- The greatest instant handed out or committed at. -/
  cursor : SystemTimeMicros := 0
  /-- The next transaction. -/
  nextTxn : U64 := 1
  /-- The next commit. -/
  nextSeq : U64 := 1
  /-- The digest the next record carries. -/
  commitHead : Digest := Digest.zero
  /-- When each key was last written. -/
  writeIndex : OrdMap BusinessKey SystemTimeMicros := ∅
  /-- The log. -/
  wal : WalLog.Wal

/-- How the disk fares in a commit. -/
structure CommitIo where
  /-- Starting a new log file, if one is due. -/
  rotation : WalLog.Wal.RotateOutcome := .done
  /-- Writing the record. -/
  write : WalLog.Wal.WriteOutcome := .done
  /-- The fsync succeeds. -/
  fsync : Bool := true

/-- The commit that a record of the log stands for. -/
def CommitLog.ChainRecord.committed (r : ChainRecord) : Committed :=
  ⟨r.commit.txnId, r.commit.commitTs, r.seq⟩

namespace TxnManager

/-- Begin a transaction when the clock reads `now`. -/
def begin_ (m : TxnManager) (now : SystemTimeMicros) : TxnManager × Transaction :=
  let snapshot := min (max now m.cursor) (systemTimeOpen - 1)
  ({ m with cursor := snapshot, nextTxn := m.nextTxn + 1 }, { txnId := m.nextTxn.val, snapshot })

/-- Some key of the transaction was written after its snapshot. -/
def conflicts (m : TxnManager) (txn : Transaction) : Bool :=
  txn.writes.any fun key =>
    (m.writeIndex[key]?).any fun writtenAt => decide (txn.snapshot < writtenAt)

/-- The instant a commit takes when the clock reads `now`. -/
def commitTs (m : TxnManager) (now : SystemTimeMicros) : SystemTimeMicros :=
  max now (min (m.cursor + 1) i64Max)

/-- The record of a commit. -/
def record (m : TxnManager) (txn : Transaction) (now : SystemTimeMicros) : ChainRecord :=
  ⟨⟨txn.txnId, m.commitTs now⟩, m.nextSeq, m.commitHead⟩

/-- Publish a commit whose record is durable. -/
def publish (m : TxnManager) (txn : Transaction) (now : SystemTimeMicros) : TxnManager :=
  { m with
    cursor := m.commitTs now
    nextSeq := m.nextSeq + 1
    commitHead := (m.record txn now).hash
    writeIndex := OrdMap.insertAll m.writeIndex (txn.writes.map fun key => (key, m.commitTs now)) }

/-- Commit a transaction when the clock reads `now`. -/
def commit (m : TxnManager) (txn : Transaction) (now : SystemTimeMicros) (io : CommitIo) :
    TxnManager × Except TxnError Committed :=
  if m.conflicts txn then (m, .error .conflict)
  else if systemTimeOpen ≤ m.commitTs now then (m, .error .timeExhausted)
  else match m.wal.append (m.record txn now).encode io.rotation io.write with
    | (wal, .error e) => ({ m with wal }, .error (.wal e))
    | (wal, .ok _) => match wal.tick io.fsync with
      | (wal, .error e) => ({ m with wal }, .error (.wal e))
      | (wal, .ok ()) =>
        ({ m.publish txn now with wal }, .ok (m.record txn now).committed)

/-- Check the chain of a log that is read from its files. -/
def verifyLog (files : List WalLog.LogFile) : Except ChainRecoverError RecoveredChain :=
  let (payloads, corrupt) := WalLog.replay files
  match verifyChainRecover payloads with
  | .error e => .error (.chain e)
  | .ok c => match corrupt with
    | some _ => .error (.replay c.len)
    | none => .ok c

/-- `u64::checked_add(1)`. -/
def checkedSucc (n : ℕ) : Option U64 := if h : n + 1 < 2 ^ 64 then some ⟨n + 1, h⟩ else none

/-- Start a manager on an existing log. -/
def recover (wal : WalLog.Wal) : Except ChainRecoverError TxnManager :=
  match verifyLog wal.files with
  | .error e => .error e
  | .ok c => match checkedSucc c.maxTxnId with
    | none => .error (.counterExhausted .txnId)
    | some nextTxn => match checkedSucc c.seq.val with
      | none => .error (.counterExhausted .seq)
      | some nextSeq =>
        .ok { cursor := c.commitTs, nextTxn, nextSeq, commitHead := c.head, wal }

end TxnManager

/-! ### Runs -/

/-- A process with its manager and the transactions that have begun. -/
structure Process where
  /-- The manager. -/
  manager : TxnManager
  /-- The transactions that may still commit. -/
  outstanding : List Transaction := []

/-- A call on the manager, with what the clock reads and the disk does. -/
inductive TxnCall where
  /-- Begin a transaction. -/
  | begin_ (now : SystemTimeMicros)
  /-- The `i`-th outstanding transaction declares a write. -/
  | write (i : ℕ) (key : BusinessKey)
  /-- The `i`-th outstanding transaction commits. -/
  | commit (i : ℕ) (now : SystemTimeMicros) (io : CommitIo)

/-- What a call led to. -/
inductive TxnOutcome where
  /-- A transaction has begun. -/
  | began (txn : Transaction)
  /-- A transaction has committed. -/
  | committed (txn : Transaction) (c : Committed)
  /-- A transaction has been refused. -/
  | refused (txn : Transaction) (e : TxnError)
  deriving DecidableEq

namespace TxnOutcome

/-- The commit, if the outcome is one. -/
def commit? : TxnOutcome → Option Committed
  | .committed _ c => some c
  | _ => none

/-- The snapshot handed out, if the outcome is one. -/
def snapshot? : TxnOutcome → Option SystemTimeMicros
  | .began txn => some txn.snapshot
  | _ => none

/-- The transaction that asked to commit. -/
def asked? : TxnOutcome → Option Transaction
  | .began _ => none
  | .committed txn _ | .refused txn _ => some txn

/-- The outcome of a commit. -/
def ofResult (txn : Transaction) : Except TxnError Committed → TxnOutcome
  | .ok c => .committed txn c
  | .error e => .refused txn e

end TxnOutcome

/-- The commits among outcomes. -/
def accepted (outcomes : List TxnOutcome) : List Committed := outcomes.filterMap TxnOutcome.commit?

namespace Process

/-- One call. -/
def call (p : Process) : TxnCall → Process × List TxnOutcome
  | .begin_ now =>
    let (manager, txn) := p.manager.begin_ now
    (⟨manager, p.outstanding ++ [txn]⟩, [.began txn])
  | .write i key => ({ p with outstanding := p.outstanding.modify i fun txn => txn.write key }, [])
  | .commit i now io =>
    match p.outstanding[i]? with
    | none => (p, [])
    | some txn =>
      let (manager, result) := p.manager.commit txn now io
      (⟨manager, p.outstanding.eraseIdx i⟩, [.ofResult txn result])

/-- Calls in order. -/
def calls : Process → List TxnCall → Process × List TxnOutcome
  | p, [] => (p, [])
  | p, c :: cs =>
    let (p, outcomes) := p.call c
    let (p, rest) := p.calls cs
    (p, outcomes ++ rest)

/-- Start a process on the files of a disk. -/
def start (segmentSizeBytes : ℕ) (files : List WalLog.LogFile) : Except ChainRecoverError Process :=
  match TxnManager.recover (WalLog.Wal.open_ segmentSizeBytes files) with
  | .error e => .error e
  | .ok manager => .ok { manager }

end Process

/-- The life of a process: what it does, and what the crash at its end leaves. -/
structure TxnLife where
  /-- Size of a log file. -/
  segmentSizeBytes : ℕ
  /-- The calls. -/
  calls : List TxnCall
  /-- Bytes kept of every file. -/
  keep : ℕ → ℕ
  /-- Files that were not fenced are lost. -/
  lose : Bool

namespace TxnManager

/-- Processes one after the other, each started on what the last one left: the files at the end and
the outcomes of each. -/
def lives : List WalLog.LogFile → List TxnLife →
    Except ChainRecoverError (List WalLog.LogFile × List (List TxnOutcome))
  | files, [] => .ok (files, [])
  | files, l :: ls =>
    match Process.start l.segmentSizeBytes files with
    | .error e => .error e
    | .ok p =>
      let (p, outcomes) := p.calls l.calls
      match lives (WalLog.crashFiles p.manager.wal.files l.keep l.lose) ls with
      | .error e => .error e
      | .ok (files, history) => .ok (files, outcomes :: history)

end TxnManager

/-! ### Chains -/

namespace CommitLog

/-- A chain with one more record. -/
def RecoveredChain.extend (c : RecoveredChain) (r : ChainRecord) : RecoveredChain :=
  ⟨r.hash, c.len + 1, r.commit.commitTs, r.seq, max c.maxTxnId r.commit.txnId⟩

/-- The chain that records build. -/
def chainOf (records : List ChainRecord) : RecoveredChain := records.foldl .extend {}

theorem chainOf_concat (records : List ChainRecord) (r : ChainRecord) :
    chainOf (records ++ [r]) = (chainOf records).extend r := by
  simp [chainOf]

/-- Each record links to the one before, has the next number and a later time. -/
def Follows : RecoveredChain → List ChainRecord → Prop
  | _, [] => True
  | c, r :: rs => (r.prevHash = c.head ∧ r.seq = c.seq + 1 ∧ c.commitTs < r.commit.commitTs ∧
      r.commit.commitTs < systemTimeOpen ∧ WellTyped r.commit) ∧ Follows (c.extend r) rs

theorem follows_append {c : RecoveredChain} {as bs : List ChainRecord} :
    Follows c (as ++ bs) ↔ Follows c as ∧ Follows (as.foldl .extend c) bs := by
  induction as generalizing c with
  | nil => simp [Follows]
  | cons r as ih =>
    rw [List.cons_append, Follows, Follows, ih, ← and_assoc]
    rfl

theorem follows_singleton {c : RecoveredChain} {r : ChainRecord} :
    Follows c [r] ↔ r.prevHash = c.head ∧ r.seq = c.seq + 1 ∧ c.commitTs < r.commit.commitTs ∧
      r.commit.commitTs < systemTimeOpen ∧ WellTyped r.commit :=
  and_iff_left trivial

/-- **A chain verifies.** -/
theorem verifyFrom_of_follows {c : RecoveredChain} {records : List ChainRecord}
    (h : Follows c records) :
    verifyFrom c (records.map ChainRecord.encode) = .ok (records.foldl .extend c) := by
  induction records generalizing c with
  | nil => rfl
  | cons r rs ih =>
    obtain ⟨⟨hprev, -, -, -, htyped⟩, hrs⟩ := h
    rw [List.map_cons, verifyFrom, ChainRecord.decode_encode htyped]
    simp only [hprev, ne_eq, not_true_eq_false, if_false]
    exact ih hrs

/-- The records are later than the chain they follow, and in order of time. -/
theorem Follows.rising {c : RecoveredChain} {records : List ChainRecord} (h : Follows c records) :
    (∀ r ∈ records, c.commitTs < r.commit.commitTs) ∧
      records.Pairwise fun r r' => r.commit.commitTs < r'.commit.commitTs := by
  induction records generalizing c with
  | nil => simp
  | cons r rs ih =>
    obtain ⟨⟨-, -, hlt, -, -⟩, hrs⟩ := h
    obtain ⟨hall, hpair⟩ := ih hrs
    refine ⟨?_, List.pairwise_cons.2 ⟨hall, hpair⟩⟩
    intro r' hr'
    rcases List.mem_cons.1 hr' with rfl | hr'
    · exact hlt
    · exact hlt.trans (hall r' hr')

/-- No record is later than the chain that ends with them. -/
theorem Follows.le_commitTs {c : RecoveredChain} {records : List ChainRecord}
    (h : Follows c records) :
    c.commitTs ≤ (records.foldl .extend c).commitTs ∧
      ∀ r ∈ records, r.commit.commitTs ≤ (records.foldl .extend c).commitTs := by
  induction records generalizing c with
  | nil => simp
  | cons r rs ih =>
    obtain ⟨⟨-, -, hlt, -, -⟩, hrs⟩ := h
    obtain ⟨hle, hall⟩ := ih hrs
    have hle' : r.commit.commitTs ≤ ((r :: rs).foldl .extend c).commitTs := hle
    refine ⟨hlt.le.trans hle', ?_⟩
    intro r' hr'
    rcases List.mem_cons.1 hr' with rfl | hr'
    · exact hle'
    · exact hall r' hr'

/-- Every record is before the end of the axis, and so is the chain. -/
theorem Follows.lt_open {c : RecoveredChain} {records : List ChainRecord} (h : Follows c records)
    (hc : c.commitTs < systemTimeOpen) :
    (∀ r ∈ records, r.commit.commitTs < systemTimeOpen) ∧
      (records.foldl .extend c).commitTs < systemTimeOpen := by
  induction records generalizing c with
  | nil => exact ⟨by simp, hc⟩
  | cons r rs ih =>
    obtain ⟨⟨-, -, -, hopen, -⟩, hrs⟩ := h
    obtain ⟨hall, hend⟩ := ih hrs hopen
    refine ⟨?_, hend⟩
    intro r' hr'
    rcases List.mem_cons.1 hr' with rfl | hr'
    · exact hopen
    · exact hall r' hr'

/-- The records are numbered on from the chain. -/
theorem Follows.seq_val {c : RecoveredChain} {records : List ChainRecord} (h : Follows c records)
    {i : ℕ} {r : ChainRecord} (hi : records[i]? = some r) :
    r.seq.val = (c.seq.val + (i + 1)) % 2 ^ 64 := by
  induction records generalizing c i with
  | nil => cases hi
  | cons r₀ rs ih =>
    obtain ⟨⟨-, hseq, -, -, -⟩, hrs⟩ := h
    have hval : r₀.seq.val = (c.seq.val + 1) % 2 ^ 64 := by
      rw [hseq, Fin.val_add]
      rfl
    cases i with
    | zero =>
      cases hi
      exact hval
    | succ i =>
      have := ih hrs hi
      rw [this, show (c.extend r₀).seq = r₀.seq from rfl, hval, Nat.mod_add_mod]
      congr 1
      omega

theorem Follows.isChain_seq {c : RecoveredChain} {records : List ChainRecord}
    (h : Follows c records) : records.IsChain fun r r' => r'.seq = r.seq + 1 := by
  induction records generalizing c with
  | nil => exact .nil
  | cons r rs ih =>
    obtain ⟨-, hrs⟩ := h
    cases rs with
    | nil => exact .singleton r
    | cons r' rs => exact .cons_cons hrs.1.2.1 (ih hrs)

end CommitLog

/-! ### What a commit does -/

namespace WalLog.Wal

variable {w : Wal}

/-- Every record ends at or before what is staged. -/
theorem Placed.le_stagedPos {placed : List (Bytes × LogPos)} (h : w.Placed placed) :
    ∀ r ∈ placed, r.2 ≤ w.stagedPos := by
  obtain ⟨closed, recent, fs, cur, debris, h, rfl⟩ := h
  intro r hr
  rw [stagedPos, h.index, h.staged, h.length_fs]
  exact layout_le hr

theorem poisoned_write_done (w : Wal) (payload : Bytes) {o : WriteOutcome} {target : LogPos}
    (h : (w.write payload o).2 = .ok target) : (w.write payload o).1.poisoned = w.poisoned := by
  cases o with
  | done => rfl
  | torn n => cases h

/-- An append that succeeds, succeeds on a log that is not poisoned and stays so. -/
theorem poisoned_append {payload : Bytes} {rotation : RotateOutcome} {write : WriteOutcome}
    {target : LogPos} (h : (w.append payload rotation write).2 = .ok target) :
    w.poisoned = false ∧ (w.append payload rotation write).1.poisoned = false := by
  unfold append at h ⊢
  split_ifs at h ⊢ with hmax hpois hrot
  · have hp : w.poisoned = false := by simpa using hpois
    have hrotated := @poisoned_rotate w rotation
    rcases hr : w.rotate rotation with ⟨w', e | u⟩
    · rw [hr] at h
      cases h
    · rw [hr] at h hrotated
      exact ⟨hp, (poisoned_write_done w' payload h).trans ((hrotated rfl).trans hp)⟩
  · have hp : w.poisoned = false := by simpa using hpois
    exact ⟨hp, (poisoned_write_done w payload h).trans hp⟩

theorem append_of_poisoned (h : w.poisoned = true) (payload : Bytes) (rotation : RotateOutcome)
    (write : WriteOutcome) : (w.append payload rotation write).1 = w := by
  unfold append
  split_ifs
  · rfl
  · rfl

end WalLog.Wal

/-- What a commit can do to the manager. -/
inductive Committing (m : TxnManager) (txn : Transaction) (now : SystemTimeMicros) :
    TxnManager → Except TxnError Committed → Prop
  | conflict (h : m.conflicts txn = true) : Committing m txn now m (.error .conflict)
  | exhausted (h : m.conflicts txn = false) : Committing m txn now m (.error .timeExhausted)
  /-- The record is not appended. -/
  | unlogged {wal : WalLog.Wal} {e : WalError} (h : m.conflicts txn = false)
      (hext : m.wal.Extends wal []) (hp : m.wal.poisoned = true → wal.poisoned = true) :
      Committing m txn now { m with wal } (.error (.wal e))
  /-- The record is appended and its fsync fails. -/
  | undecided {wal : WalLog.Wal} {e : WalError} {target : WalLog.LogPos}
      (h : m.conflicts txn = false) (hts : m.commitTs now < systemTimeOpen)
      (hp : m.wal.poisoned = false) (hext : m.wal.Extends wal [((m.record txn now).encode, target)])
      (hp' : wal.poisoned = true) : Committing m txn now { m with wal } (.error (.wal e))
  | done {wal : WalLog.Wal} {target : WalLog.LogPos} (h : m.conflicts txn = false)
      (hts : m.commitTs now < systemTimeOpen) (hp : m.wal.poisoned = false)
      (hext : m.wal.Extends wal [((m.record txn now).encode, target)])
      (hdurable : wal.durableEnd = wal.stagedPos) :
      Committing m txn now { m.publish txn now with wal } (.ok (m.record txn now).committed)

namespace TxnManager

theorem commit_cases (m : TxnManager) (txn : Transaction) (now : SystemTimeMicros) (io : CommitIo) :
    Committing m txn now (m.commit txn now io).1 (m.commit txn now io).2 := by
  unfold commit
  by_cases hc : m.conflicts txn = true
  · rw [if_pos hc]
    exact .conflict hc
  have hc' : m.conflicts txn = false := by simpa using hc
  rw [if_neg hc]
  by_cases hts : systemTimeOpen ≤ m.commitTs now
  · rw [if_pos hts]
    exact .exhausted hc'
  rw [if_neg hts]
  have hext := m.wal.extends_append (m.record txn now).encode io.rotation io.write
  have hpois := @WalLog.Wal.poisoned_append m.wal (m.record txn now).encode io.rotation io.write
  rcases happ : m.wal.append (m.record txn now).encode io.rotation io.write with ⟨wal, e | target⟩
  · rw [happ] at hext
    refine .unlogged hc' hext fun hp => ?_
    have hsame := WalLog.Wal.append_of_poisoned hp (m.record txn now).encode io.rotation io.write
    rw [happ] at hsame
    rwa [show wal = m.wal from hsame]
  rw [happ] at hext hpois
  obtain ⟨hp, hp'⟩ := hpois rfl
  have htick := hext.trans (wal.extends_tick io.fsync)
  have hp'' : ¬ wal.poisoned = true := by simp [show wal.poisoned = false from hp']
  simp only
  cases hsync : io.fsync with
  | false =>
    have h : wal.tick false = ({ wal with poisoned := true }, .error .io) := by
      rw [WalLog.Wal.tick, if_neg hp'']
      rfl
    rw [hsync, h] at htick
    rw [h]
    exact .undecided hc' (not_le.1 hts) hp htick rfl
  | true =>
    have h : wal.tick true = ({ wal.syncCurrent with durableEnd := wal.stagedPos }, .ok ()) := by
      rw [WalLog.Wal.tick, if_neg hp'', if_pos rfl]
    rw [hsync, h] at htick
    rw [h]
    exact .done hc' (not_le.1 hts) hp htick rfl

/-- A commit that fails leaves the manager as it was; only its log may have moved. -/
theorem commit_error {m m' : TxnManager} {txn : Transaction} {now : SystemTimeMicros}
    {e : TxnError} (h : Committing m txn now m' (.error e)) : m' = { m with wal := m'.wal } := by
  cases h <;> rfl

theorem cursor_lt_commitTs {m : TxnManager} {now : SystemTimeMicros}
    (h : m.commitTs now < systemTimeOpen) : m.cursor < m.commitTs now := by
  have hle : min (m.cursor + 1) i64Max ≤ m.commitTs now := le_max_right _ _
  have hlt : min (m.cursor + 1) i64Max < i64Max := hle.trans_lt h
  rcases min_lt_iff.1 hlt with hlt | hlt
  · rw [min_eq_left hlt.le] at hle
    exact Int.lt_of_add_one_le hle
  · exact absurd hlt (lt_irrefl _)

end TxnManager

end SteleDb
