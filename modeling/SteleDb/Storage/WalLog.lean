import SteleDb.Lib.FrameLog
import SteleDb.Storage.Checksum
import SteleDb.Storage.Dml

/-!
# The write-ahead log, byte by byte

The log is a sequence of files.  A record is appended to the last one as a frame of length,
checksum and payload; a file that would outgrow its size is fsynced and a new one started.  A
record is durable, and its `Commit` resolves, once an fsync has covered it.

A process lives from an `open` to a crash.  A crash keeps of every file what was fsynced and any
number of the bytes after that, and may lose the directory entry of a file that was never fenced.
Replay reads the files in order up to the first frame that is damaged.

* `WalLog.Wal.Holds` : what the files and the bookkeeping of a running log have in common;
* `WalLog.replay_of_lives` : over any number of lives, replay returns the records whose commit has
  resolved and only appended ones, as long as no life begins on a log that ends in part of a
  record.  A record that is torn hides what later lives append
  (`WalLog.torn_record_hides_commit`).
-/

namespace SteleDb

namespace WalLog

/-! ### Files and positions -/

/-- A file of the log. -/
structure LogFile where
  /-- Its bytes. -/
  bytes : Bytes := []
  /-- How many of them an fsync has covered. -/
  synced : ℕ := 0
  /-- Its directory entry is durable. -/
  fenced : Bool := false
  deriving DecidableEq, Repr

/-- A position of the log: file and byte. -/
abbrev LogPos := ℕ ×ₗ ℕ

/-- The log of a running process. -/
structure Wal where
  /-- Size at which a log file is closed. -/
  segmentSizeBytes : ℕ
  /-- The files, `wal-0` first. -/
  files : List LogFile
  /-- The file that is appended to. -/
  currentSegmentIndex : ℕ
  /-- End of the records appended, in the current file. -/
  stagedEnd : ℕ
  /-- End of the records known durable. -/
  durableEnd : LogPos
  /-- Further writes are refused. -/
  poisoned : Bool
  deriving DecidableEq

/-! ### Frames -/

/-- The frame of a record. -/
def encode (payload : Bytes) : Bytes :=
  leBytes 4 payload.length ++ (leBytes 4 (crc32c payload).toNat ++ payload)

/-- The record at the front of what is left of a file. -/
def readRecord (bytes : Bytes) : FrameRead Unit Bytes Unit :=
  if bytes = [] then .stop
  else if bytes.length < walHeaderLen then .fail ()
  else
    let len := leNat (bytes.take 4)
    let crc := leNat ((bytes.drop 4).take 4)
    if maxPayloadLen < len then .fail ()
    else if bytes.length < walHeaderLen + len then .fail ()
    else
      let payload := (bytes.drop walHeaderLen).take len
      if (crc32c payload).toNat = crc then .frame payload (walHeaderLen + len) ()
      else .fail ()

/-- Records of the files from `wal-i` on, and where a damaged one begins. -/
def replayFrom : ℕ → List Bytes → List Bytes × Option LogPos
  | _, [] => ([], none)
  | i, file :: files =>
    let s := scan (fun _ => readRecord) () file
    match s.error with
    | some () => (s.records, some (toLex (i, file.length - s.rest.length)))
    | none =>
      let (records, corrupt) := replayFrom (i + 1) files
      (s.records ++ records, corrupt)

/-- Read the log from its beginning. -/
def replay (files : List LogFile) : List Bytes × Option LogPos :=
  replayFrom 0 (files.map LogFile.bytes)

/-- Replay as recovery does it: damage from the fence on is the torn end of the log, damage before
it an error. -/
def recoverReplay (files : List LogFile) (fence : LogPos) : Except WalError (List Bytes) :=
  match replay files with
  | (records, none) => .ok records
  | (records, some position) => if fence ≤ position then .ok records else .error .io

/-! ### The running log -/

namespace Wal

/-- Open the log on the files of a disk: the last file is appended to.  All directory entries are
fenced. -/
def open_ (segmentSizeBytes : ℕ) (files : List LogFile) : Wal :=
  let files := if files = [] then [{}] else files
  let idx := files.length - 1
  let len := ((files[idx]?).map fun f => f.bytes.length).getD 0
  { segmentSizeBytes
    files := files.map fun f => { f with fenced := true }
    currentSegmentIndex := idx
    stagedEnd := len
    durableEnd := toLex (idx, len)
    poisoned := false }

/-- fsync the current file. -/
def syncCurrent (w : Wal) : Wal :=
  { w with files := w.files.modify w.currentSegmentIndex fun f =>
      { f with synced := f.bytes.length } }

/-- The end of the records appended. -/
def stagedPos (w : Wal) : LogPos := toLex (w.currentSegmentIndex, w.stagedEnd)

/-- The group-commit fsync, which fares as `ok` says. -/
def tick (w : Wal) (ok : Bool) : Wal × Except WalError Unit :=
  if w.poisoned then (w, .error .poisoned)
  -- a failed fsync may have lost what it was to cover, so nothing is appended any more
  else if ok then ({ w.syncCurrent with durableEnd := w.stagedPos }, .ok ())
  else ({ w with poisoned := true }, .error .io)

/-- How the disk operations of a rotation fare. -/
inductive RotateOutcome where
  /-- All succeed. -/
  | done
  /-- The fsync of the closing file fails. -/
  | syncFailed
  /-- The new file is not created. -/
  | createFailed
  /-- The new file is created, its directory entry is not made durable. -/
  | fenceFailed
  deriving DecidableEq, Repr

/-- Close the current file and start the next. -/
def rotate (w : Wal) : RotateOutcome → Wal × Except WalError Unit
  | .syncFailed => ({ w with poisoned := true }, .error .io)
  -- the current file stays open for the next attempt
  | .createFailed => (w.syncCurrent, .error .io)
  | .fenceFailed =>
    ({ w.syncCurrent with files := w.syncCurrent.files ++ [{}], poisoned := true }, .error .io)
  | .done =>
    let idx := w.currentSegmentIndex + 1
    ({ w.syncCurrent with
        files := w.syncCurrent.files ++ [{ fenced := true }]
        currentSegmentIndex := idx
        stagedEnd := 0
        durableEnd := toLex (idx, 0) }, .ok ())

/-- How the write of a frame fares. -/
inductive WriteOutcome where
  /-- It is written. -/
  | done
  /-- It fails after `n` bytes, and before the last. -/
  | torn (n : ℕ)
  deriving DecidableEq, Repr

/-- Bytes at the end of the current file. -/
def appendBytes (w : Wal) (bytes : Bytes) : Wal :=
  { w with files := w.files.modify w.currentSegmentIndex fun f =>
      { f with bytes := f.bytes ++ bytes } }

/-- Write the frame of a record.  When part of it has landed, the log is poisoned. -/
def write (w : Wal) (payload : Bytes) : WriteOutcome → Wal × Except WalError LogPos
  | .done =>
    let w := { w.appendBytes (encode payload) with
                stagedEnd := w.stagedEnd + (walHeaderLen + payload.length) }
    (w, .ok w.stagedPos)
  | .torn n =>
    -- with nothing landed the end of the file is where it was, and the log goes on
    let landed := min n (walHeaderLen + payload.length - 1)
    ({ w.appendBytes ((encode payload).take landed) with poisoned := decide (0 < landed) },
      .error .io)

/-- Append a record: its position is the end of its frame. -/
def append (w : Wal) (payload : Bytes) (rotation : RotateOutcome) (write : WriteOutcome) :
    Wal × Except WalError LogPos :=
  if maxPayloadLen < payload.length then (w, .error (.payloadTooLarge payload.length))
  else if w.poisoned then (w, .error .poisoned)
  -- a record that is larger than a file gets one of its own
  else if w.segmentSizeBytes < w.stagedEnd + (walHeaderLen + payload.length) ∧
      0 < w.stagedEnd then
    match w.rotate rotation with
    | (w, .error e) => (w, .error e)
    | (w, .ok ()) => w.write payload write
  else w.write payload write

/-- The `Commit` of a record that ends at `target` resolves. -/
def committed (w : Wal) (target : LogPos) : Bool := target ≤ w.durableEnd

end Wal

/-! ### Lives -/

/-- A call of a process on its log. -/
inductive WalCall where
  /-- Append a record. -/
  | append (payload : Bytes) (rotation : Wal.RotateOutcome) (write : Wal.WriteOutcome)
  /-- fsync. -/
  | tick (ok : Bool)
  deriving DecidableEq, Repr

/-- One call, and the record it appended with its position. -/
def Wal.call (w : Wal) : WalCall → Wal × List (Bytes × LogPos)
  | .append payload rotation write =>
    match w.append payload rotation write with
    | (w, .ok target) => (w, [(payload, target)])
    | (w, .error _) => (w, [])
  | .tick ok => ((w.tick ok).1, [])

/-- Calls in order. -/
def Wal.calls : Wal → List WalCall → Wal × List (Bytes × LogPos)
  | w, [] => (w, [])
  | w, c :: cs =>
    let (w, appended) := w.call c
    let (w, rest) := w.calls cs
    (w, appended ++ rest)

/-- What a crash leaves of a file of which it would keep `keep` bytes. -/
def LogFile.crash (f : LogFile) (keep : ℕ) : LogFile :=
  let bytes := f.bytes.take (max f.synced keep)
  { bytes, synced := bytes.length, fenced := true }

/-- What a crash leaves: of file `i` at least `keep i` bytes; with `lose`, no file that was never
fenced. -/
def crashFiles (files : List LogFile) (keep : ℕ → ℕ) (lose : Bool) : List LogFile :=
  (files.filter fun f => f.fenced || !lose).mapIdx fun i f => f.crash (keep i)

/-- The life of a process: what it does, and what the crash at its end leaves. -/
structure Life where
  /-- Size of a log file. -/
  segmentSizeBytes : ℕ
  /-- The calls. -/
  calls : List WalCall
  /-- Bytes kept of every file. -/
  keep : ℕ → ℕ
  /-- Files that were not fenced are lost. -/
  lose : Bool

/-- The log at the end of a life, and what it appended. -/
def Life.end_ (l : Life) (files : List LogFile) : Wal × List (Bytes × LogPos) :=
  (Wal.open_ l.segmentSizeBytes files).calls l.calls

/-- What a life leaves on the disk. -/
def Life.leaves (l : Life) (files : List LogFile) : List LogFile :=
  crashFiles (l.end_ files).1.files l.keep l.lose

/-- The records a life appended, each with whether its commit resolved. -/
def Life.appended (l : Life) (files : List LogFile) : List (Bytes × Bool) :=
  (l.end_ files).2.map fun r => (r.1, (l.end_ files).1.committed r.2)

/-- The disk after lives. -/
def disk (lives : List Life) : List LogFile := lives.foldl (fun files l => l.leaves files) []

/-- Everything appended in lives, in order. -/
def appended : List LogFile → List Life → List (Bytes × Bool)
  | _, [] => []
  | files, l :: lives => l.appended files ++ appended (l.leaves files) lives

/-! ### Frames read back -/

@[simp] theorem length_encode (payload : Bytes) :
    (encode payload).length = walHeaderLen + payload.length := by
  simp [encode, walHeaderLen]
  omega

/-- A frame of which at least the header is there. -/
theorem readRecord_of_header {payload bytes : Bytes} (hp : payload.length ≤ maxPayloadLen)
    (hlen : walHeaderLen ≤ bytes.length)
    (h : bytes.take walHeaderLen = (encode payload).take walHeaderLen) :
    readRecord bytes =
      if bytes.length < walHeaderLen + payload.length then .fail ()
      else if (crc32c ((bytes.drop walHeaderLen).take payload.length)).toNat =
          (crc32c payload).toNat then
        .frame ((bytes.drop walHeaderLen).take payload.length) (walHeaderLen + payload.length) ()
      else .fail () := by
  -- the two fields of the header
  have hcount : payload.length < 256 ^ 4 := hp.trans_lt (by decide)
  have h4 : (leBytes 4 payload.length).length = 4 := length_leBytes 4 _
  have hhead : (encode payload).take walHeaderLen =
      leBytes 4 payload.length ++ leBytes 4 (crc32c payload).toNat := by
    have h8 : (leBytes 4 payload.length ++ leBytes 4 (crc32c payload).toNat).length =
      walHeaderLen := by simp [walHeaderLen]
    rw [encode, ← List.append_assoc, ← h8, List.take_left]
  have hfirst : bytes.take 4 = leBytes 4 payload.length := by
    have htake : bytes.take 4 = (bytes.take walHeaderLen).take 4 := by
      simp [walHeaderLen, List.take_take]
    rw [htake, h, hhead]
    exact List.take_left' h4
  have hsecond : (bytes.drop 4).take 4 = leBytes 4 (crc32c payload).toNat := by
    have hdrop : (bytes.drop 4).take 4 = (bytes.take walHeaderLen).drop 4 := by
      rw [List.drop_take]
      rfl
    rw [hdrop, h, hhead]
    exact List.drop_left' h4
  have hne : bytes ≠ [] := by
    rintro rfl
    exact absurd hlen (by decide)
  unfold readRecord
  rw [if_neg hne, if_neg (not_lt.2 hlen), hfirst, hsecond, leNat_leBytes hcount,
    leNat_leBytes (crc32c payload).isLt]
  dsimp only
  rw [if_neg (not_lt.2 hp)]

/-- A whole frame is read back, whatever follows it. -/
theorem readRecord_encode {payload : Bytes} (hp : payload.length ≤ maxPayloadLen) (rest : Bytes) :
    readRecord (encode payload ++ rest) = .frame payload (encode payload).length () := by
  have hle : walHeaderLen ≤ (encode payload).length := by rw [length_encode]; omega
  have hpay : ((encode payload ++ rest).drop walHeaderLen).take payload.length = payload := by
    have h8 : (leBytes 4 payload.length ++ leBytes 4 (crc32c payload).toNat).length =
      walHeaderLen := by simp [walHeaderLen]
    rw [encode, ← List.append_assoc, List.append_assoc _ payload, ← h8, List.drop_left,
      List.take_left]
  rw [readRecord_of_header hp (by rw [List.length_append]; omega)
    (List.take_append_of_le_length hle), hpay, if_neg (by simp), if_pos rfl, length_encode]

/-- A torn frame at the end of a file is damage. -/
theorem readRecord_torn {payload : Bytes} (hp : payload.length ≤ maxPayloadLen) {n : ℕ}
    (hpos : 0 < n) (hn : n < (encode payload).length) :
    readRecord ((encode payload).take n) = .fail () := by
  have hlen : ((encode payload).take n).length = n := by
    rw [List.length_take]
    omega
  -- torn inside the header, or behind it
  by_cases hshort : n < walHeaderLen
  · have hne : (encode payload).take n ≠ [] := by
      rw [← List.length_pos_iff, hlen]
      exact hpos
    rw [readRecord, if_neg hne, if_pos (hlen.trans_lt hshort)]
  · have htake : ((encode payload).take n).take walHeaderLen =
        (encode payload).take walHeaderLen := by
      rw [List.take_take, min_eq_left (not_lt.1 hshort)]
    rw [readRecord_of_header hp ((not_lt.1 hshort).trans_eq hlen.symm) htake, if_pos]
    rwa [hlen, ← length_encode]

theorem advances_readRecord : Advances fun _ : Unit => readRecord := by
  intro _ bytes a len s hr
  have h : readRecord bytes = .frame a len s := hr
  unfold readRecord at h
  split_ifs at h with hnil hshort
  dsimp only at h
  split_ifs at h with hmax hlen hcrc
  cases h
  exact ⟨by simp [walHeaderLen], not_lt.1 hlen⟩

/-- The frames of the log. -/
def format : FrameFormat (Fin 256) Unit Bytes Unit where
  read _ := readRecord
  encode _ := encode
  next _ _ := ()
  Readable payload := payload.length ≤ maxPayloadLen
  advances := advances_readRecord
  read_encode _ _ rest h := readRecord_encode h rest

theorem format_read (bytes : Bytes) : format.read () bytes = readRecord bytes := rfl

/-- The frames of records. -/
def frames (records : List Bytes) : Bytes := format.encodeAll () records

@[simp] theorem frames_nil : frames [] = [] := rfl

@[simp] theorem frames_append (as bs : List Bytes) : frames (as ++ bs) = frames as ++ frames bs :=
  FrameFormat.encodeAll_append () as bs

@[simp] theorem frames_singleton (payload : Bytes) : frames [payload] = encode payload := by
  simp [frames, FrameFormat.encodeAll, format]

/-- Part of a frame, or nothing. -/
def Torn (debris : Bytes) : Prop :=
  debris = [] ∨ ∃ payload n, payload.length ≤ maxPayloadLen ∧ 0 < n ∧ n < (encode payload).length ∧
    debris = (encode payload).take n

/-- A file of whole frames and perhaps part of one. -/
theorem scan_frames {records : List Bytes} (h : ∀ p ∈ records, p.length ≤ maxPayloadLen)
    {debris : Bytes} (hd : Torn debris) :
    scan (fun _ => readRecord) () (frames records ++ debris) =
      ⟨records, (), debris, if debris = [] then none else some ()⟩ := by
  have hscan := format.scan_encodeAll_append () h debris
  have htail : scan format.read () debris =
      ⟨[], (), debris, if debris = [] then none else some ()⟩ := by
    -- nothing behind the last record, or part of one
    obtain rfl | ⟨payload, n, hp, hpos, hn, rfl⟩ := hd
    · exact scan_of_stop ((format_read []).trans rfl)
    · have hne : (encode payload).take n ≠ [] := by
        rw [← List.length_pos_iff, List.length_take]
        omega
      rw [if_neg hne]
      exact scan_of_fail ((format_read _).trans (readRecord_torn hp hpos hn))
  have hboth := hscan.trans (congrArg (Scan.prepend records) htail)
  rw [Scan.prepend, List.append_nil] at hboth
  exact hboth

/-- Replay of files of whole frames, the last of which may end in part of one. -/
theorem replayFrom_frames {closed : List (List Bytes)} {recent : List Bytes}
    (h : ∀ rs ∈ closed ++ [recent], ∀ p ∈ rs, p.length ≤ maxPayloadLen) {debris : Bytes}
    (hd : Torn debris) (i : ℕ) :
    replayFrom i (closed.map frames ++ [frames recent ++ debris]) =
      (closed.flatten ++ recent,
        if debris = [] then none
        else some (toLex (i + closed.length, (frames recent).length))) := by
  induction closed generalizing i with
  | nil =>
    rw [List.map_nil, List.nil_append, replayFrom, scan_frames (h recent (by simp)) hd]
    by_cases hne : debris = []
    · simp [hne, replayFrom]
    · simp [hne]
  | cons rs closed ih =>
    have hrs := scan_frames (h rs (by simp)) (.inl rfl : Torn [])
    rw [List.append_nil] at hrs
    rw [List.map_cons, List.cons_append, replayFrom, hrs]
    simp only [↓reduceIte]
    rw [ih (fun rs' hrs' => h rs' (List.mem_cons_of_mem _ hrs')) (i + 1)]
    simp only [List.flatten_cons, List.append_assoc, List.length_cons]
    rw [Nat.add_assoc, Nat.add_comm 1]

/-! ### Where records end -/

/-- Records of file `i` from byte `off` on, each with the position at its end. -/
def ends (i : ℕ) : ℕ → List Bytes → List (Bytes × LogPos)
  | _, [] => []
  | off, p :: ps =>
    (p, toLex (i, off + (encode p).length)) :: ends i (off + (encode p).length) ps

/-- The records of files from `wal-i` on, each with the position at its end. -/
def layout : ℕ → List (List Bytes) → List (Bytes × LogPos)
  | _, [] => []
  | i, rs :: rss => ends i 0 rs ++ layout (i + 1) rss

theorem ends_append (i off : ℕ) (as bs : List Bytes) :
    ends i off (as ++ bs) = ends i off as ++ ends i (off + (frames as).length) bs := by
  induction as generalizing off with
  | nil => simp [ends]
  | cons a as ih =>
    have hcons : frames (a :: as) = encode a ++ frames as := rfl
    rw [List.cons_append, ends, ends, ih, hcons, List.length_append, Nat.add_assoc]
    rfl

theorem layout_append (i : ℕ) (as bs : List (List Bytes)) :
    layout i (as ++ bs) = layout i as ++ layout (i + as.length) bs := by
  induction as generalizing i with
  | nil => rfl
  | cons a as ih =>
    rw [List.cons_append, layout, layout, ih, List.append_assoc, List.length_cons, Nat.add_assoc,
      Nat.add_comm 1]

theorem layout_concat (closed : List (List Bytes)) (recent : List Bytes) :
    layout 0 (closed ++ [recent]) = layout 0 closed ++ ends closed.length 0 recent := by
  rw [layout_append, Nat.zero_add, layout, layout, List.append_nil]

theorem map_fst_ends (i off : ℕ) (ps : List Bytes) : (ends i off ps).map Prod.fst = ps := by
  induction ps generalizing off with
  | nil => rfl
  | cons p ps ih => rw [ends, List.map_cons, ih]

theorem map_fst_layout (i : ℕ) (rss : List (List Bytes)) :
    (layout i rss).map Prod.fst = rss.flatten := by
  induction rss generalizing i with
  | nil => rfl
  | cons rs rss ih => rw [layout, List.map_append, map_fst_ends, ih, List.flatten_cons]

/-- A record of file `i` ends after byte `off` and no later than the last of them. -/
theorem mem_ends {i off : ℕ} {ps : List Bytes} {r : Bytes × LogPos} (h : r ∈ ends i off ps) :
    ∃ n, r.2 = toLex (i, n) ∧ off < n ∧ n ≤ off + (frames ps).length := by
  induction ps generalizing off with
  | nil => cases h
  | cons p ps ih =>
    have hcons : (frames (p :: ps)).length = (encode p).length + (frames ps).length :=
      List.length_append
    have hpos : 0 < (encode p).length := by rw [length_encode, walHeaderLen]; omega
    rw [ends] at h
    rcases List.mem_cons.1 h with rfl | h
    · exact ⟨_, rfl, by omega, by omega⟩
    · obtain ⟨n, hn, hlt, hle⟩ := ih h
      exact ⟨n, hn, by omega, by omega⟩

/-- A record of closed files ends in one of them. -/
theorem mem_layout {i : ℕ} {rss : List (List Bytes)} {r : Bytes × LogPos} (h : r ∈ layout i rss) :
    ∃ j n, r.2 = toLex (j, n) ∧ j < i + rss.length := by
  induction rss generalizing i with
  | nil => cases h
  | cons rs rss ih =>
    rw [layout] at h
    rcases List.mem_append.1 h with h | h
    · obtain ⟨n, hn, -, -⟩ := mem_ends h
      exact ⟨i, n, hn, by rw [List.length_cons]; omega⟩
    · obtain ⟨j, n, hn, hj⟩ := ih h
      exact ⟨j, n, hn, by rw [List.length_cons]; omega⟩

/-- Every record ends at or before the end of the last file. -/
theorem layout_le {closed : List (List Bytes)} {recent : List Bytes} {r : Bytes × LogPos}
    (h : r ∈ layout 0 (closed ++ [recent])) :
    r.2 ≤ toLex (closed.length, (frames recent).length) := by
  rw [layout_concat] at h
  rcases List.mem_append.1 h with h | h
  · obtain ⟨j, n, hn, hj⟩ := mem_layout h
    rw [hn, Prod.Lex.toLex_le_toLex]
    exact .inl (by omega)
  · obtain ⟨n, hn, -, hle⟩ := mem_ends h
    rw [hn, Prod.Lex.toLex_le_toLex]
    exact .inr ⟨rfl, by simpa using hle⟩

/-! ### The running log -/

/-- All of a file is durable. -/
def LogFile.Rested (f : LogFile) : Prop := f.synced = f.bytes.length ∧ f.fenced = true

/-- The files hold `closed` and, in the current one, `recent`; the bookkeeping agrees. -/
structure Wal.Holds (w : Wal) (closed : List (List Bytes)) (recent : List Bytes)
    (fs : List LogFile) (cur : LogFile) (debris : Bytes) : Prop where
  files : w.files = fs ++ [cur] ∨
    w.poisoned = true ∧ debris = [] ∧ cur.Rested ∧ w.files = fs ++ [cur, {}]
  index : w.currentSegmentIndex = fs.length
  older : fs.map LogFile.bytes = closed.map frames
  rested : ∀ f ∈ fs, f.Rested
  bytes : cur.bytes = frames recent ++ debris
  fenced : cur.fenced = true
  staged : w.stagedEnd = (frames recent).length
  durable : ∃ old, old <+: recent ∧ (frames old).length ≤ cur.synced ∧
    w.durableEnd = toLex (fs.length, (frames old).length)
  clean : w.poisoned = false → debris = []
  torn : Torn debris
  readable : ∀ rs ∈ closed ++ [recent], ∀ p ∈ rs, p.length ≤ maxPayloadLen

/-- The files hold the records `placed`, each ending where `placed` says. -/
def Wal.Placed (w : Wal) (placed : List (Bytes × LogPos)) : Prop :=
  ∃ closed recent fs cur debris, w.Holds closed recent fs cur debris ∧
    layout 0 (closed ++ [recent]) = placed

theorem modify_concat {α : Type*} (fs : List α) (cur : α) (g : α → α) :
    (fs ++ [cur]).modify fs.length g = fs ++ [g cur] := by
  induction fs with
  | nil => rfl
  | cons f fs ih => rw [List.cons_append, List.length_cons, List.modify_succ_cons, ih]; rfl

theorem mem_modify {α : Type*} {l : List α} {i : ℕ} {g : α → α} {y : α}
    (h : y ∈ l.modify i g) : ∃ x ∈ l, y = x ∨ y = g x := by
  obtain ⟨j, hj⟩ := List.getElem?_of_mem h
  rw [List.getElem?_modify] at hj
  obtain ⟨x, hx, hy⟩ := Option.map_eq_some_iff.1 hj
  refine ⟨x, List.mem_of_getElem? hx, ?_⟩
  by_cases hij : i = j
  · exact .inr (by simpa [hij] using hy.symm)
  · exact .inl (by simpa [hij] using hy.symm)

/-- The record that an append has accepted, with its position. -/
def recordOf (payload : Bytes) : Except WalError LogPos → List (Bytes × LogPos)
  | .ok target => [(payload, target)]
  | .error _ => []

namespace Wal

variable {w : Wal} {closed : List (List Bytes)} {recent : List Bytes} {fs : List LogFile}
  {cur : LogFile} {debris : Bytes}

theorem Holds.length_fs (h : w.Holds closed recent fs cur debris) : fs.length = closed.length := by
  simpa using congrArg List.length h.older

/-- A log that is not poisoned has whole frames only, and its current file is the last. -/
theorem Holds.running (h : w.Holds closed recent fs cur debris) (hp : w.poisoned = false) :
    w.files = fs ++ [cur] ∧ cur.bytes = frames recent := by
  refine ⟨h.files.resolve_right fun hx => ?_, ?_⟩
  · rw [hp] at hx
    exact absurd hx.1 (by decide)
  · rw [h.bytes, h.clean hp, List.append_nil]

theorem length_frames_le {as bs : List Bytes} (h : as <+: bs) :
    (frames as).length ≤ (frames bs).length := by
  obtain ⟨cs, rfl⟩ := h
  rw [frames_append, List.length_append]
  omega

theorem Holds.poison (h : w.Holds closed recent fs cur debris) (hp : w.poisoned = false) :
    Holds { w with poisoned := true } closed recent fs cur debris :=
  { h with
    files := .inl (h.running hp).1
    clean := fun hc => nomatch hc }

/-- An fsync covers the current file. -/
theorem Holds.sync (h : w.Holds closed recent fs cur debris) (hp : w.poisoned = false) :
    w.syncCurrent.Holds closed recent fs { cur with synced := cur.bytes.length } debris := by
  obtain ⟨hfiles, hbytes⟩ := h.running hp
  have hfiles' : w.syncCurrent.files = fs ++ [{ cur with synced := cur.bytes.length }] := by
    rw [syncCurrent, hfiles, h.index, modify_concat]
  obtain ⟨old, hold, -, hend⟩ := h.durable
  refine { h with files := .inl hfiles', bytes := h.bytes, durable := ⟨old, hold, ?_, hend⟩ }
  rw [hbytes]
  exact length_frames_le hold

/-- The log has got on from `w` to `w'` and appended `new`. -/
def Extends (w w' : Wal) (new : List (Bytes × LogPos)) : Prop :=
  ∀ placed, w.Placed placed → w'.Placed (placed ++ new) ∧ w.durableEnd ≤ w'.durableEnd

theorem Extends.refl (w : Wal) : Extends w w [] := fun placed h =>
  ⟨by rwa [List.append_nil], le_rfl⟩

theorem Extends.trans {w' w'' : Wal} {new new' : List (Bytes × LogPos)} (h : Extends w w' new)
    (h' : Extends w' w'' new') : Extends w w'' (new ++ new') := fun placed hp => by
  obtain ⟨h₁, hle₁⟩ := h placed hp
  obtain ⟨h₂, hle₂⟩ := h' _ h₁
  rw [List.append_assoc] at h₂
  exact ⟨h₂, hle₁.trans hle₂⟩

theorem extends_tick (w : Wal) (ok : Bool) : Extends w (w.tick ok).1 [] := by
  rintro placed ⟨closed, recent, fs, cur, debris, h, rfl⟩
  rw [List.append_nil]
  unfold tick
  split_ifs with hp hok
  · exact ⟨⟨_, _, _, _, _, h, rfl⟩, le_rfl⟩
  · have hp' : w.poisoned = false := by simpa using hp
    have hs := h.sync hp'
    obtain ⟨old, hold, -, hend⟩ := h.durable
    have hbytes := (h.running hp').2
    refine ⟨⟨closed, recent, fs, _, debris,
      { hs with durable := ⟨recent, List.prefix_rfl, ?_, ?_⟩ }, rfl⟩, ?_⟩
    · rw [hbytes]
    · rw [stagedPos, h.index, h.staged]
    · rw [hend, stagedPos, h.index, h.staged, Prod.Lex.toLex_le_toLex]
      exact .inr ⟨rfl, length_frames_le hold⟩
  · exact ⟨⟨_, _, _, _, _, h.poison (by simpa using hp), rfl⟩, le_rfl⟩

theorem extends_rotate (hp : w.poisoned = false) (o : RotateOutcome) :
    Extends w (w.rotate o).1 [] := by
  rintro placed ⟨closed, recent, fs, cur, debris, h, rfl⟩
  rw [List.append_nil]
  obtain ⟨-, hbytes⟩ := h.running hp
  have hs := h.sync hp
  have hfiles := (hs.running hp).1
  have hdebris := h.clean hp
  subst hdebris
  have hrest : LogFile.Rested { cur with synced := cur.bytes.length } := ⟨rfl, h.fenced⟩
  cases o with
  | done =>
    refine ⟨⟨closed ++ [recent], [], fs ++ [{ cur with synced := cur.bytes.length }],
      { fenced := true }, [], ?_, ?_⟩, ?_⟩
    · refine ⟨.inl ?_, ?_, ?_, ?_, rfl, rfl, rfl, ⟨[], List.prefix_rfl, le_rfl, ?_⟩,
        fun _ => rfl, .inl rfl, ?_⟩
      · simp only [rotate, hfiles]
      · simp only [rotate, h.index, List.length_append, List.length_singleton]
      · rw [List.map_append, List.map_append, h.older, List.map_singleton, List.map_singleton,
          hbytes]
      · intro f hf
        rcases List.mem_append.1 hf with hf | hf
        · exact h.rested f hf
        · rw [List.mem_singleton.1 hf]
          exact hrest
      · simp only [rotate, h.index, List.length_append, List.length_singleton, frames_nil,
          List.length_nil]
      · intro rs hrs p hpr
        rcases List.mem_append.1 hrs with hrs | hrs
        · exact h.readable rs hrs p hpr
        · rw [List.mem_singleton.1 hrs] at hpr
          cases hpr
    · rw [layout_concat _ [], ends, List.append_nil]
    · obtain ⟨old, -, -, hend⟩ := h.durable
      simp only [rotate, h.index, hend, Prod.Lex.toLex_le_toLex]
      exact .inl (Nat.lt_succ_self _)
  | syncFailed => exact ⟨⟨_, _, _, _, _, h.poison hp, rfl⟩, le_rfl⟩
  | createFailed => exact ⟨⟨_, _, _, _, _, hs, rfl⟩, le_rfl⟩
  | fenceFailed =>
    refine ⟨⟨closed, recent, fs, _, [],
      { hs with files := .inr ⟨rfl, rfl, hrest, ?_⟩, clean := ?_ }, rfl⟩, le_rfl⟩
    · simp only [rotate, hfiles, List.append_assoc, List.singleton_append]
    · exact fun _ => rfl

/-- What was written last stands at the end of the current file. -/
theorem Holds.appendBytes (h : w.Holds closed recent fs cur debris) (hp : w.poisoned = false)
    (bytes : Bytes) :
    (w.appendBytes bytes).files = fs ++ [{ cur with bytes := frames recent ++ bytes }] := by
  obtain ⟨hfiles, hbytes⟩ := h.running hp
  rw [Wal.appendBytes, hfiles, h.index, modify_concat, hbytes]

theorem extends_write (hp : w.poisoned = false) {payload : Bytes}
    (hlen : payload.length ≤ maxPayloadLen) (o : WriteOutcome) :
    Extends w (w.write payload o).1 (recordOf payload (w.write payload o).2) := by
  rintro placed ⟨closed, recent, fs, cur, debris, h, rfl⟩
  have hfiles := h.appendBytes hp
  obtain ⟨old, hold, hsync, hend⟩ := h.durable
  cases o with
  | done =>
    have hframes : (frames (recent ++ [payload])).length =
        w.stagedEnd + (walHeaderLen + payload.length) := by
      rw [frames_append, frames_singleton, List.length_append, length_encode, h.staged]
    refine ⟨⟨closed, recent ++ [payload], fs,
      { cur with bytes := frames (recent ++ [payload]) }, [], ?_, ?_⟩, le_rfl⟩
    · refine ⟨.inl ?_, h.index, h.older, h.rested, (List.append_nil _).symm, h.fenced,
        hframes.symm, ⟨old, hold.trans (List.prefix_append _ _), hsync, hend⟩, fun _ => rfl,
        .inl rfl, ?_⟩
      · rw [frames_append, frames_singleton]
        exact hfiles _
      · intro rs hrs p hpr
        rcases List.mem_append.1 hrs with hrs | hrs
        · exact h.readable rs (List.mem_append_left _ hrs) p hpr
        · rw [List.mem_singleton.1 hrs] at hpr
          rcases List.mem_append.1 hpr with hpr | hpr
          · exact h.readable recent (by simp) p hpr
          · rwa [List.mem_singleton.1 hpr]
    · have hstaged : w.stagedEnd + (walHeaderLen + payload.length) =
          0 + (frames recent).length + (encode payload).length := by
        rw [h.staged, length_encode, Nat.zero_add]
      rw [layout_concat, layout_concat, ends_append, ends, ends, List.append_assoc]
      simp only [write, recordOf, stagedPos, Wal.appendBytes, h.index, h.length_fs, hstaged]
  | torn n =>
    have hle : (w.write payload (.torn n)).1.durableEnd = w.durableEnd := rfl
    simp only [recordOf, write, List.append_nil]
    refine ⟨?_, le_rfl⟩
    have hshort : min n (walHeaderLen + payload.length - 1) < (encode payload).length := by
      rw [length_encode, walHeaderLen]
      omega
    generalize min n (walHeaderLen + payload.length - 1) = landed at hshort ⊢
    refine ⟨closed, recent, fs, { cur with bytes := frames recent ++ (encode payload).take landed },
      (encode payload).take landed, ?_, rfl⟩
    refine ⟨.inl (hfiles _), h.index, h.older, h.rested, rfl, h.fenced, h.staged,
      ⟨old, hold, hsync, hend⟩, fun hc => ?_, ?_, h.readable⟩
    · have hzero : landed = 0 := by simpa using hc
      rw [hzero, List.take_zero]
    · rcases Nat.eq_zero_or_pos landed with rfl | hpos
      · exact .inl rfl
      · exact .inr ⟨payload, landed, hlen, hpos, hshort, rfl⟩

theorem poisoned_rotate {o : RotateOutcome} (h : (w.rotate o).2 = .ok ()) :
    (w.rotate o).1.poisoned = w.poisoned := by
  cases o <;> first | rfl | cases h

theorem extends_append (w : Wal) (payload : Bytes) (rotation : RotateOutcome)
    (write : WriteOutcome) :
    Extends w (w.append payload rotation write).1
      (recordOf payload (w.append payload rotation write).2) := by
  unfold append
  split_ifs with hmax hpois hrot
  · exact .refl w
  · exact .refl w
  · have hp : w.poisoned = false := by simpa using hpois
    have hext := extends_rotate hp rotation
    have hpois' := @poisoned_rotate w rotation
    rcases hr : w.rotate rotation with ⟨w', e | _⟩ <;> rw [hr] at hext hpois'
    · exact hext
    · exact hext.trans (extends_write ((hpois' rfl).trans hp) (not_lt.1 hmax) write)
  · exact extends_write (by simpa using hpois) (not_lt.1 hmax) write

/-- One call. -/
theorem extends_call (w : Wal) (c : WalCall) : Extends w (w.call c).1 (w.call c).2 := by
  cases c with
  | append payload rotation write =>
    have h := extends_append w payload rotation write
    simp only [call]
    rcases ha : w.append payload rotation write with ⟨w', e | target⟩ <;> rw [ha] at h <;> exact h
  | tick ok => exact extends_tick w ok

/-- Any number of calls. -/
theorem extends_calls (w : Wal) (cs : List WalCall) : Extends w (w.calls cs).1 (w.calls cs).2 := by
  induction cs generalizing w with
  | nil => exact .refl w
  | cons c cs ih => exact (extends_call w c).trans (ih _)

end Wal

/-! ### Crashes -/

/-- A disk after a crash: whole frames, and at the end of the last file perhaps part of one. -/
structure Resting (files : List LogFile) (closed : List (List Bytes)) (recent : List Bytes)
    (debris : Bytes) : Prop where
  bytes : files.map LogFile.bytes = closed.map frames ++ [frames recent ++ debris]
  rested : ∀ f ∈ files, f.Rested
  torn : Torn debris
  readable : ∀ rs ∈ closed ++ [recent], ∀ p ∈ rs, p.length ≤ maxPayloadLen

theorem Resting.replay {files : List LogFile} {closed : List (List Bytes)} {recent : List Bytes}
    {debris : Bytes} (h : Resting files closed recent debris) :
    replay files = (closed.flatten ++ recent,
      if debris = [] then none else some (toLex (closed.length, (frames recent).length))) := by
  rw [WalLog.replay, h.bytes, replayFrom_frames h.readable h.torn, Nat.zero_add]

theorem LogFile.rested_crash (f : LogFile) (keep : ℕ) : (f.crash keep).Rested := ⟨rfl, rfl⟩

/-- A crash takes nothing from a file that is durable. -/
theorem LogFile.Rested.bytes_crash {f : LogFile} (h : f.Rested) (keep : ℕ) :
    (f.crash keep).bytes = f.bytes := by
  rw [LogFile.crash, List.take_of_length_le]
  rw [h.1]
  exact le_max_left _ _

theorem map_bytes_crash {files : List LogFile} (h : ∀ f ∈ files, f.Rested) (keep : ℕ → ℕ) :
    (files.mapIdx fun i f => f.crash (keep i)).map LogFile.bytes = files.map LogFile.bytes := by
  refine List.ext_getElem (by simp) fun i h₁ h₂ => ?_
  simp only [List.getElem_map, List.getElem_mapIdx]
  exact (h _ (List.getElem_mem _)).bytes_crash _

theorem rested_crashFiles {files : List LogFile} {keep : ℕ → ℕ} {lose : Bool} :
    ∀ f ∈ crashFiles files keep lose, f.Rested := by
  intro f hf
  obtain ⟨i, hi, rfl⟩ := List.mem_mapIdx.1 hf
  exact LogFile.rested_crash _ _

theorem Torn.take {debris : Bytes} (h : Torn debris) (k : ℕ) : Torn (debris.take k) := by
  obtain rfl | ⟨payload, n, hp, hpos, hn, rfl⟩ := h
  · exact .inl List.take_nil
  · rw [List.take_take]
    rcases Nat.eq_zero_or_pos (min k n) with h0 | h0
    · rw [h0]
      exact .inl List.take_zero
    · exact .inr ⟨payload, min k n, hp, h0, (min_le_right _ _).trans_lt hn, rfl⟩

/-- What `k` bytes hold of frames: the frames that fit, and part of the next.  The others end
later. -/
theorem take_frames {records : List Bytes} (h : ∀ p ∈ records, p.length ≤ maxPayloadLen)
    {debris : Bytes} (hd : Torn debris) (k : ℕ) :
    ∃ kept lost debris', records = kept ++ lost ∧
      (frames records ++ debris).take k = frames kept ++ debris' ∧ Torn debris' ∧
      (∀ pre, pre <+: records → (frames pre).length ≤ k →
        (frames pre).length ≤ (frames kept).length) ∧
      ∀ i off, ∀ r ∈ ends i (off + (frames kept).length) lost,
        ∃ n, r.2 = toLex (i, n) ∧ off + k < n := by
  induction records generalizing k with
  | nil =>
    refine ⟨[], [], debris.take k, rfl, by simp, hd.take k, fun pre hpre _ => ?_,
      fun i off r hr => nomatch hr⟩
    rw [List.prefix_nil.1 hpre]
  | cons p ps ih =>
    have hcons : ∀ qs, frames (p :: qs) = encode p ++ frames qs := fun _ => rfl
    have hp := h p List.mem_cons_self
    by_cases hk : k < (encode p).length
    · refine ⟨[], p :: ps, (encode p).take k, rfl, ?_, ?_, fun pre hpre hle => ?_,
        fun i off r hr => ?_⟩
      · rw [hcons, List.append_assoc, List.take_append_of_le_length hk.le, frames_nil,
          List.nil_append]
      · rcases Nat.eq_zero_or_pos k with rfl | hpos
        · exact .inl List.take_zero
        · exact .inr ⟨p, k, hp, hpos, hk, rfl⟩
      · rcases List.prefix_cons_iff.1 hpre with rfl | ⟨pre', rfl, -⟩
        · exact le_rfl
        · rw [hcons, List.length_append] at hle
          omega
      · rw [frames_nil, List.length_nil, Nat.add_zero, ends] at hr
        rcases List.mem_cons.1 hr with rfl | hr
        · exact ⟨_, rfl, by omega⟩
        · obtain ⟨n, hn, hlt, -⟩ := mem_ends hr
          exact ⟨n, hn, by omega⟩
    · obtain ⟨kept, lost, debris', rfl, htake, htorn, hpre, hlost⟩ :=
        ih (fun q hq => h q (List.mem_cons_of_mem p hq)) (k - (encode p).length)
      refine ⟨p :: kept, lost, debris', rfl, ?_, htorn, fun pre hpre' hle => ?_,
        fun i off r hr => ?_⟩
      · rw [hcons, hcons, List.append_assoc, List.take_append, htake,
          List.take_of_length_le (not_lt.1 hk), List.append_assoc]
      · rcases List.prefix_cons_iff.1 hpre' with rfl | ⟨pre', rfl, hpre''⟩
        · exact Nat.zero_le _
        · have hle' := hpre pre' hpre''
          rw [hcons, List.length_append] at hle
          rw [hcons, hcons, List.length_append, List.length_append]
          omega
      · rw [hcons, List.length_append, ← Nat.add_assoc] at hr
        obtain ⟨n, hn, hlt⟩ := hlost i _ r hr
        exact ⟨n, hn, by omega⟩

namespace Wal

variable {w : Wal} {closed : List (List Bytes)} {recent : List Bytes} {fs : List LogFile}
  {cur : LogFile} {debris : Bytes}

/-- A crash that leaves no file after the current one. -/
theorem Holds.crash (h : w.Holds closed recent fs cur debris) (keep : ℕ → ℕ) :
    ∃ kept debris' lost,
      Resting ((fs ++ [cur]).mapIdx fun i f => f.crash (keep i)) closed kept debris' ∧
      layout 0 (closed ++ [recent]) = layout 0 (closed ++ [kept]) ++ lost ∧
      (∀ r ∈ lost, ¬ r.2 ≤ w.durableEnd) ∧
      w.durableEnd ≤ toLex (closed.length, (frames kept).length) := by
  obtain ⟨old, hold, hsync, hend⟩ := h.durable
  have hrecent : ∀ p ∈ recent, p.length ≤ maxPayloadLen := h.readable recent (by simp)
  obtain ⟨kept, lost, debris', rfl, htake, htorn, hpre, hlost⟩ :=
    take_frames hrecent h.torn (max cur.synced (keep fs.length))
  have hcur : (cur.crash (keep fs.length)).bytes = frames kept ++ debris' := by
    rw [LogFile.crash, h.bytes]
    exact htake
  rw [h.length_fs] at hend
  refine ⟨kept, debris', ends closed.length (frames kept).length lost, ⟨?_, ?_, htorn, ?_⟩,
    ?_, ?_, ?_⟩
  · rw [List.mapIdx_append, List.map_append, map_bytes_crash h.rested, h.older]
    simp only [List.mapIdx_singleton, Nat.zero_add, List.map_singleton, hcur]
  · intro f hf
    obtain ⟨i, hi, rfl⟩ := List.mem_mapIdx.1 hf
    exact LogFile.rested_crash _ _
  · intro rs hrs p hp
    rcases List.mem_append.1 hrs with hrs | hrs
    · exact h.readable rs (List.mem_append_left _ hrs) p hp
    · rw [List.mem_singleton.1 hrs] at hp
      exact hrecent p (List.mem_append_left _ hp)
  · rw [layout_concat, layout_concat, ends_append, List.append_assoc, Nat.zero_add]
  · intro r hr hle
    obtain ⟨n, hn, hlt⟩ := hlost closed.length 0 r (by rwa [Nat.zero_add])
    rw [hn, hend, Prod.Lex.toLex_le_toLex] at hle
    have hsynced := le_max_left cur.synced (keep fs.length)
    rcases hle with hle | ⟨-, hle⟩
    · exact absurd hle (lt_irrefl _)
    · omega
  · rw [hend, Prod.Lex.toLex_le_toLex]
    exact .inr ⟨rfl, hpre old hold (hsync.trans (le_max_left _ _))⟩

/-- Any crash. -/
theorem Placed.crash {placed : List (Bytes × LogPos)} (h : w.Placed placed) (keep : ℕ → ℕ)
    (lose : Bool) :
    ∃ closed recent debris lost, Resting (crashFiles w.files keep lose) closed recent debris ∧
      placed = layout 0 (closed ++ [recent]) ++ lost ∧ (∀ r ∈ lost, ¬ r.2 ≤ w.durableEnd) ∧
      w.durableEnd ≤ toLex (closed.length, (frames recent).length) := by
  obtain ⟨closed, recent, fs, cur, debris, h, rfl⟩ := h
  have hfenced : (fs ++ [cur]).filter (fun f => f.fenced || !lose) = fs ++ [cur] := by
    refine List.filter_eq_self.2 fun f hf => ?_
    rcases List.mem_append.1 hf with hf | hf
    · rw [(h.rested f hf).2]
      rfl
    · rw [List.mem_singleton.1 hf, h.fenced]
      rfl
  obtain hfile | ⟨hfile, hextra⟩ : w.files.filter (fun f => f.fenced || !lose) = fs ++ [cur] ∨
      w.files.filter (fun f => f.fenced || !lose) = fs ++ [cur] ++ [({} : LogFile)] ∧ debris = [] ∧
        cur.Rested := by
    obtain hf | ⟨-, hd, hrest, hf⟩ := h.files
    · exact .inl (by rw [hf, hfenced])
    · rw [hf, List.append_cons, List.filter_append, hfenced]
      cases lose with
      | true => exact .inl (List.append_nil _)
      | false => exact .inr ⟨rfl, hd, hrest⟩
  · obtain ⟨kept, debris', lost, hrest, hlay, hlost, hle⟩ := h.crash keep
    refine ⟨closed, kept, debris', lost, ?_, hlay, hlost, hle⟩
    rwa [crashFiles, hfile]
  · -- the fence of a new file failed, and the file is there
    obtain ⟨rfl, hrest⟩ := hextra
    obtain ⟨old, -, -, hend⟩ := h.durable
    have hall : ∀ f ∈ fs ++ [cur], f.Rested := fun f hf => by
      rcases List.mem_append.1 hf with hf | hf
      · exact h.rested f hf
      · rwa [List.mem_singleton.1 hf]
    refine ⟨closed ++ [recent], [], [], [], ⟨?_, rested_crashFiles, .inl rfl, ?_⟩, ?_,
      fun r hr => (nomatch hr), ?_⟩
    · rw [crashFiles, hfile, List.mapIdx_append, List.map_append, map_bytes_crash hall,
        List.map_append, h.older, List.map_append, List.map_singleton, h.bytes, List.append_nil]
      simp [LogFile.crash]
    · intro rs hrs p hp
      rcases List.mem_append.1 hrs with hrs | hrs
      · exact h.readable rs hrs p hp
      · rw [List.mem_singleton.1 hrs] at hp
        cases hp
    · rw [List.append_nil, layout_concat _ [], ends, List.append_nil]
    · rw [hend, h.length_fs, Prod.Lex.toLex_le_toLex, List.length_append]
      exact .inl (Nat.lt_succ_self _)

/-- The log as a life finds it. -/
theorem placed_open {files : List LogFile} (h : Resting files closed recent []) (size : ℕ) :
    (open_ size files).Placed (layout 0 (closed ++ [recent])) ∧
      (open_ size files).durableEnd = toLex (closed.length, (frames recent).length) := by
  obtain ⟨hbytes, hrested, -, hreadable⟩ := h
  rw [List.append_nil] at hbytes
  obtain ⟨fs, cur, rfl⟩ : ∃ fs cur, files = fs ++ [cur] := by
    refine ⟨files.dropLast, files.getLast ?_, (List.dropLast_append_getLast _).symm⟩
    rintro rfl
    simp at hbytes
  rw [List.map_append] at hbytes
  obtain ⟨holder, hlast⟩ := List.append_inj' hbytes rfl
  have hcur : cur.bytes = frames recent := List.head_eq_of_cons_eq hlast
  have hlen : fs.length = closed.length := by simpa using congrArg List.length holder
  have hcurRested := hrested cur (by simp)
  have hfence : ∀ f ∈ fs, ({ f with fenced := true } : LogFile) = f := fun f hf => by
    have := (hrested f (List.mem_append_left _ hf)).2
    cases f
    simp_all
  have hfs : fs.map (fun f => ({ f with fenced := true } : LogFile)) = fs := by
    rw [List.map_congr_left hfence, List.map_id']
  have hopen : open_ size (fs ++ [cur]) =
      { segmentSizeBytes := size, files := fs ++ [{ cur with fenced := true }],
        currentSegmentIndex := fs.length, stagedEnd := (frames recent).length,
        durableEnd := toLex (fs.length, (frames recent).length), poisoned := false } := by
    simp [open_, hfs, hcur]
  rw [hopen]
  refine ⟨⟨closed, recent, fs, _, [], ⟨.inl rfl, rfl, holder,
    fun f hf => hrested f (List.mem_append_left _ hf), ?_, rfl, rfl,
    ⟨recent, List.prefix_rfl, ?_, rfl⟩, fun _ => rfl, .inl rfl, hreadable⟩, rfl⟩, ?_⟩
  · rw [List.append_nil]
    exact hcur
  · rw [hcurRested.1, hcur]
  · rw [hlen]

/-- A new log. -/
theorem placed_open_nil (size : ℕ) :
    (open_ size []).Placed [] ∧ (open_ size []).durableEnd = toLex (0, 0) := by
  refine ⟨⟨[], [], [], { fenced := true }, [],
    ⟨.inl rfl, rfl, rfl, fun f hf => (nomatch hf), rfl, rfl,
    rfl, ⟨[], List.prefix_rfl, le_rfl, rfl⟩, fun _ => rfl, .inl rfl, ?_⟩, rfl⟩, rfl⟩
  intro rs hrs p hp
  rw [List.mem_singleton.1 hrs] at hp
  cases hp

end Wal

/-! ### Lives -/

theorem disk_append (lives : List Life) (l : Life) :
    disk (lives ++ [l]) = l.leaves (disk lives) := by
  simp [disk]

theorem appended_append (files : List LogFile) (lives : List Life) (l : Life) :
    appended files (lives ++ [l]) =
      appended files lives ++ l.appended (lives.foldl (fun files l => l.leaves files) files) := by
  induction lives generalizing files with
  | nil => simp [appended]
  | cons l' lives ih => rw [List.cons_append, appended, appended, ih, List.append_assoc]; rfl

/-- What one life leaves of a log of whole frames: all that was there, the first of the records it
appended, and among them all whose commit resolved. -/
theorem Life.leaves_resting {l : Life} {files : List LogFile} {placed : List (Bytes × LogPos)}
    (hopen : (Wal.open_ l.segmentSizeBytes files).Placed placed)
    (hdurable : ∀ r ∈ placed, r.2 ≤ (Wal.open_ l.segmentSizeBytes files).durableEnd) :
    ∃ closed recent debris kept lost, Resting (l.leaves files) closed recent debris ∧
      closed.flatten ++ recent = placed.map Prod.fst ++ kept.map Prod.fst ∧
      l.appended files = kept ++ lost ∧ lost.filter Prod.snd = [] ∧
      (l.end_ files).1.durableEnd ≤ toLex (closed.length, (frames recent).length) := by
  obtain ⟨hplaced, hmono⟩ := Wal.extends_calls _ l.calls placed hopen
  obtain ⟨closed, recent, debris, lost, hrest, hsplit, hlost, hle⟩ := hplaced.crash l.keep l.lose
  have hflat : closed.flatten ++ recent = (layout 0 (closed ++ [recent])).map Prod.fst := by
    rw [map_fst_layout, List.flatten_append, List.flatten_singleton]
  -- what a life finds is durable, so the crash does not reach it
  obtain ⟨kept, hkept, hnew⟩ : ∃ kept, layout 0 (closed ++ [recent]) = placed ++ kept ∧
      (l.end_ files).2 = kept ++ lost := by
    rcases List.append_eq_append_iff.1 hsplit with ⟨kept, hk, hn⟩ | ⟨c, hc, hn⟩
    · exact ⟨kept, hk, hn⟩
    · have hnil : c = [] := List.eq_nil_iff_forall_not_mem.2 fun r hr => by
        refine hlost r (by rw [hn]; exact List.mem_append_left _ hr) ?_
        exact (hdurable r (by rw [hc]; exact List.mem_append_right _ hr)).trans hmono
      subst hnil
      rw [List.append_nil] at hc
      exact ⟨[], by rw [List.append_nil, hc], hn.symm⟩
  refine ⟨closed, recent, debris, kept.map fun r => (r.1, (l.end_ files).1.committed r.2),
    lost.map fun r => (r.1, (l.end_ files).1.committed r.2), hrest, ?_, ?_, ?_, hle⟩
  · rw [hflat, hkept, List.map_append, List.map_map]
    rfl
  · rw [Life.appended, hnew, List.map_append]
  · refine List.filter_eq_nil_iff.2 fun r hr => ?_
    obtain ⟨r', hr', rfl⟩ := List.mem_map.1 hr
    exact mt of_decide_eq_true (hlost r' hr')

/-- Every life finds a log that replays to its end. -/
def Sound (lives : List Life) : Prop :=
  ∀ past l, past ++ [l] <+: lives → (replay (disk past)).2 = none

/-- A disk with the records of `history`, up to some whose commit did not resolve. -/
def Keeps (files : List LogFile) (history : List (Bytes × Bool)) (durableEnd : LogPos) : Prop :=
  ∃ closed recent debris kept, Resting files closed recent debris ∧
    closed.flatten ++ recent = kept.map Prod.fst ∧ kept.Sublist history ∧
    (history.filter Prod.snd).Sublist kept ∧
    durableEnd ≤ toLex (closed.length, (frames recent).length)

/-- One more life. -/
theorem keeps_step {l : Life} {files : List LogFile}
    {history : List (Bytes × Bool)}
    (h : files = [] ∧ history = [] ∨ ∃ e, Keeps files history e)
    (hsound : (replay files).2 = none) :
    Keeps (l.leaves files) (history ++ l.appended files) (l.end_ files).1.durableEnd := by
  obtain ⟨rfl, rfl⟩ | ⟨e, closed₀, recent₀, debris₀, kept₀, hrest₀, hkept₀, hsub₀, hack₀, -⟩ := h
  · obtain ⟨closed, recent, debris, kept, lost, hrest, hflat, happ, hlost, hle⟩ :=
      Life.leaves_resting (Wal.placed_open_nil l.segmentSizeBytes).1 fun r hr => nomatch hr
    refine ⟨closed, recent, debris, kept, hrest, hflat, ?_, ?_, hle⟩
    · rw [happ]
      exact List.sublist_append_left _ _
    · rw [List.nil_append, happ, List.filter_append, hlost, List.append_nil]
      exact List.filter_sublist
  · have hdebris : debris₀ = [] := by
      by_contra hne
      rw [hrest₀.replay, if_neg hne] at hsound
      cases hsound
    subst hdebris
    obtain ⟨hopen, hend⟩ := Wal.placed_open hrest₀ l.segmentSizeBytes
    obtain ⟨closed, recent, debris, kept, lost, hrest, hflat, happ, hlost, hle⟩ :=
      Life.leaves_resting hopen fun r hr => by
        rw [hend]
        exact layout_le hr
    rw [map_fst_layout, List.flatten_append, List.flatten_singleton, hkept₀, ← List.map_append]
      at hflat
    refine ⟨closed, recent, debris, kept₀ ++ kept, hrest, hflat, ?_, ?_, hle⟩
    · rw [happ]
      exact hsub₀.append (List.sublist_append_left _ _)
    · rw [happ, List.filter_append, List.filter_append, hlost, List.append_nil]
      exact hack₀.append List.filter_sublist

/-- Any number of lives. -/
theorem keeps_lives {lives : List Life} (hs : Sound lives) :
    disk lives = [] ∧ appended [] lives = [] ∨ ∃ e, Keeps (disk lives) (appended [] lives) e := by
  induction lives using List.reverseRecOn with
  | nil => exact .inl ⟨rfl, rfl⟩
  | append_singleton lives l ih =>
    have hpast : Sound lives := fun past l' hp => hs past l' (hp.trans (List.prefix_append _ _))
    rw [disk_append, appended_append]
    exact .inr ⟨_, keeps_step (ih hpast) (hs lives l List.prefix_rfl)⟩

/-- The log over any number of lives: recovery returns the records in the order they were appended,
all whose commit has resolved and none that was not appended. -/
theorem replay_of_lives {lives : List Life} (hs : Sound lives) (fence : LogPos)
    (hf : ∀ past l, lives = past ++ [l] → fence ≤ (l.end_ (disk past)).1.durableEnd) :
    ∃ kept, recoverReplay (disk lives) fence = .ok (kept.map Prod.fst) ∧
      kept.Sublist (appended [] lives) ∧ ((appended [] lives).filter Prod.snd).Sublist kept := by
  rcases List.eq_nil_or_concat lives with rfl | ⟨past, l, rfl⟩
  · exact ⟨[], rfl, .slnil, .slnil⟩
  rw [List.concat_eq_append] at hs hf ⊢
  have hpast : Sound past := fun past' l' hp => hs past' l' (hp.trans (List.prefix_append _ _))
  obtain ⟨closed, recent, debris, kept, hrest, hflat, hsub, hack, hle⟩ :=
    keeps_step (keeps_lives hpast) (hs past l List.prefix_rfl)
  rw [← disk_append] at hrest
  have hhistory : appended [] (past ++ [l]) = appended [] past ++ l.appended (disk past) :=
    appended_append [] past l
  rw [hhistory]
  refine ⟨kept, ?_, hsub, hack⟩
  rw [recoverReplay, hrest.replay, ← hflat]
  by_cases hd : debris = []
  · rw [if_pos hd]
  · rw [if_neg hd]
    exact if_pos ((hf past l rfl).trans hle)

theorem sound_of_take {lives : List Life}
    (h : ∀ n : Fin lives.length, (replay (disk (lives.take n))).2 = none) : Sound lives := by
  rintro past l ⟨rest, rfl⟩
  have hn := h ⟨past.length, by simp⟩
  simpa using hn

theorem origin_le (p : LogPos) : toLex (0, 0) ≤ p := by
  refine Prod.Lex.toLex_le_toLex.2 ?_
  rcases Nat.eq_zero_or_pos (ofLex p).1 with h | h
  · exact .inr ⟨h.symm, Nat.zero_le _⟩
  · exact .inl h

/-- A life that appends a record for each payload, with an fsync after each if `ticks`, and keeps
`keep` bytes of every file. -/
def lifeOf (payloads : List Bytes) (ticks : Bool) (keep : ℕ) : Life where
  segmentSizeBytes := 64 * 1024 * 1024
  calls := payloads.flatMap fun p =>
    .append p .done .done :: if ticks then [WalCall.tick true] else []
  keep _ := keep
  lose := true

theorem replay_of_two_lives :
    ∃ kept, recoverReplay (disk [lifeOf [[1], [2]] true 0, lifeOf [[3]] false 4]) (toLex (0, 0)) =
        .ok (kept.map Prod.fst) ∧
      kept.Sublist (appended [] [lifeOf [[1], [2]] true 0, lifeOf [[3]] false 4]) ∧
      ((appended [] [lifeOf [[1], [2]] true 0, lifeOf [[3]] false 4]).filter Prod.snd).Sublist
        kept :=
  replay_of_lives (sound_of_take (by decide)) _ fun _ _ _ => origin_le _

/-- A life that begins on a torn record loses what it commits: the first life leaves four bytes of
its record, the second one's commit resolves, and recovery finds neither. -/
theorem torn_record_hides_commit :
    recoverReplay (disk [lifeOf [[1]] false 4, lifeOf [[2]] true 0]) (toLex (0, 0)) = .ok [] ∧
      appended [] [lifeOf [[1]] false 4, lifeOf [[2]] true 0] = [([1], false), ([2], true)] := by
  refine ⟨?_, ?_⟩ <;> decide +kernel

end WalLog

end SteleDb
