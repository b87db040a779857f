import SteleDb.Storage.PartialReplay

/-!
# Holes in the log

Replay lists the files of the log once and steps from listed file to listed file.  It does not look
at their numbers, so a file that is missing is stepped over, and replay that is to begin in a
missing file ends at once.  Zero bytes read as frames: eight of them are the frame of the empty
record.

* `WalLog.LogImage` : a log from the start of replay on, in each file frames and then a torn end;
* `WalLog.LogImage.exists_of_lives` : the log that lives leave is one;
* `WalLog.Hole` : missing files, and frames that are overwritten with zeros;
* `WalLog.hole_refused_iff` : a hole is refused exactly if what is left is not accepted as a log on
  its own, and never in a log that ends, if at all, torn in its last file and is recovered without
  the hole.
-/

namespace SteleDb

namespace WalLog

/-! ### Replay of the files that are listed -/

/-- The files of a disk by number, in order. -/
abbrev Segments := List (ℕ × Bytes)

/-- What `Wal::open` lists: the files of the disk, and a new one if there is none. -/
def knownSegments (segments : Segments) : Segments := if segments = [] then [(0, [])] else segments

/-- Records of listed files, of the first one from byte `offset` on, and where a damaged record
begins. -/
def replayListed : ℕ → Segments → List Bytes × Option LogPos
  | _, [] => ([], none)
  | offset, (i, file) :: later =>
    let s := scan (fun _ => readRecord) () (file.drop offset)
    match s.error with
    | some () => (s.records, some (toLex (i, file.length - s.rest.length)))
    | none =>
      let (records, corrupt) := replayListed 0 later
      (s.records ++ records, corrupt)

/-- Replay from a position: nothing is read if its file is not listed. -/
def replaySegments (segments : Segments) (position : LogPos) : List Bytes × Option LogPos :=
  replayListed (ofLex position).2 (segments.dropWhile fun s => s.1 ≠ (ofLex position).1)

/-- Recover the tiers from the files of the log. -/
def recoverSegments (committed : CommittedTxns) (segments : Segments) (start fence : LogPos)
    (t : Tiers) : Except RecoverError (Tiers × ℕ) :=
  let (records, corrupt) := replaySegments (knownSegments segments) start
  match replayRecords committed t 0 records with
  | .error e => .error e
  | .ok r => match corrupt with
    | none => .ok r
    | some position => if fence ≤ position then .ok r else .error .wal

/-- Files numbered without gaps. -/
def numbered : ℕ → List Bytes → Segments
  | _, [] => []
  | i, file :: files => (i, file) :: numbered (i + 1) files

theorem map_fst_numbered (i : ℕ) (files : List Bytes) :
    (numbered i files).map Prod.fst = List.range' i files.length := by
  induction files generalizing i with
  | nil => rfl
  | cons file files ih => rw [numbered, List.map_cons, ih, List.length_cons, List.range'_succ]

theorem replayListed_numbered (i : ℕ) (files : List Bytes) :
    replayListed 0 (numbered i files) = replayFrom i files := by
  induction files generalizing i with
  | nil => rfl
  | cons file files ih =>
    rw [numbered, replayListed, List.drop_zero, ih]
    rfl

theorem dropWhile_numbered (i j : ℕ) (files : List Bytes) :
    (numbered i files).dropWhile (fun s => s.1 ≠ i + j) = numbered (i + j) (files.drop j) := by
  induction j generalizing i files with
  | zero => cases files <;> simp [numbered]
  | succ j ih =>
    rcases files with _ | ⟨file, files⟩
    · rfl
    · have hne : i ≠ i + (j + 1) := by omega
      rw [numbered, List.dropWhile_cons, if_pos (decide_eq_true hne), List.drop_succ_cons,
        show i + (j + 1) = i + 1 + j by omega]
      exact ih (i + 1) files

/-- Without gaps this is the replay of a log of consecutive files. -/
theorem replaySegments_numbered (files : List Bytes) (position : LogPos) :
    replaySegments (numbered 0 files) position = replayAt files position := by
  have hdrop := dropWhile_numbered 0 (ofLex position).1 files
  rw [Nat.zero_add] at hdrop
  rw [replaySegments, hdrop, replayAt]
  simp only
  by_cases hlt : (ofLex position).1 < files.length
  · rw [List.drop_eq_getElem_cons hlt, List.getElem?_eq_getElem hlt, numbered]
    cases herr : (scan (fun _ => readRecord) ()
        (files[(ofLex position).1].drop (ofLex position).2)).error with
    | some u => simp only [replayListed, herr]
    | none => simp only [replayListed, replayListed_numbered, herr]
  · rw [List.drop_of_length_le (not_lt.1 hlt), List.getElem?_eq_none (not_lt.1 hlt)]
    rfl

/-- A file that is created holds no record. -/
theorem replaySegments_known (segments : Segments) (position : LogPos) :
    replaySegments (knownSegments segments) position = replaySegments segments position := by
  by_cases h : segments = []
  · subst h
    rw [knownSegments, if_pos rfl, replaySegments, List.dropWhile_cons]
    split
    · rfl
    · have hscan : scan (fun _ => readRecord) () [] = ⟨[], (), [], none⟩ := scan_of_stop rfl
      rw [replayListed, List.drop_nil, hscan]
      rfl
  · rw [knownSegments, if_neg h]

/-- The recovery of a disk image is this one. -/
theorem recoverSegments_numbered (committed : CommittedTxns) (d : DiskImage) (t : Tiers) :
    recoverSegments committed (numbered 0 d.wal) d.floor d.fence t = recoverTail committed d t := by
  rw [recoverSegments, replaySegments_known, replaySegments_numbered]
  rfl

/-! ### Frames and torn ends -/

/-- A frame that is read is one that was written. -/
theorem readRecord_eq_frame {bytes payload : Bytes} {len : ℕ} {u : Unit}
    (h : readRecord bytes = .frame payload len u) :
    payload.length ≤ maxPayloadLen ∧ bytes.take len = encode payload := by
  unfold readRecord at h
  dsimp only at h
  split_ifs at h with hnil hshort hmax hpart hcrc
  cases h
  push Not at hshort hmax hpart
  have hlen : ((bytes.drop walHeaderLen).take (leNat (bytes.take 4))).length =
      leNat (bytes.take 4) := by
    rw [List.length_take, List.length_drop]
    omega
  refine ⟨by rw [hlen]; exact hmax, ?_⟩
  have h8 : walHeaderLen = 4 + 4 := rfl
  have hfirst : leBytes 4 (leNat (bytes.take 4)) = bytes.take 4 := by
    have := leBytes_leNat (bytes.take 4)
    rwa [List.length_take, min_eq_left (by omega)] at this
  have hsecond : leBytes 4 (leNat ((bytes.drop 4).take 4)) = (bytes.drop 4).take 4 := by
    have := leBytes_leNat ((bytes.drop 4).take 4)
    rwa [List.length_take, List.length_drop, min_eq_left (by omega)] at this
  rw [encode, hlen, hfirst, hcrc, hsecond, h8, Nat.add_assoc, List.take_add, List.take_add,
    List.drop_drop]

/-- **What a file holds**: frames, and bytes that cannot be read as one. -/
theorem exists_frames (bytes : Bytes) :
    ∃ records tail, bytes = frames records ++ tail ∧ (∀ p ∈ records, p.length ≤ maxPayloadLen) ∧
      (tail = [] ∨ readRecord tail = .fail ()) := by
  induction hn : bytes.length using Nat.strong_induction_on generalizing bytes with
  | _ n ih =>
    rcases hr : readRecord bytes with _ | u | ⟨payload, len, u⟩
    · -- reading stops at the end of the file only
      have hnil : bytes = [] := by
        unfold readRecord at hr
        dsimp only at hr
        split_ifs at hr with hnil
        exact hnil
      exact ⟨[], [], by rw [hnil]; rfl, fun p hp => (nomatch hp), .inl rfl⟩
    · exact ⟨[], bytes, rfl, fun p hp => (nomatch hp), .inr hr⟩
    · obtain ⟨hmax, htake⟩ := readRecord_eq_frame hr
      obtain ⟨hpos, hle⟩ := advances_readRecord () bytes payload len u hr
      obtain ⟨records, tail, hrest, hrecords, htail⟩ :=
        ih (bytes.drop len).length (by rw [List.length_drop]; omega) (bytes.drop len) rfl
      refine ⟨payload :: records, tail, ?_, ?_, htail⟩
      · calc bytes = bytes.take len ++ bytes.drop len := (List.take_append_drop _ _).symm
          _ = encode payload ++ (frames records ++ tail) := by rw [htake, hrest]
          _ = frames ([payload] ++ records) ++ tail := by
            rw [frames_append, frames_singleton, List.append_assoc]
      · intro p hp
        rcases List.mem_cons.1 hp with rfl | hp
        · exact hmax
        · exact hrecords p hp

/-- A file of the log from some byte on. -/
structure Chunk where
  /-- The number of the file. -/
  segment : ℕ
  /-- Its bytes before those that are looked at. -/
  front : Bytes
  /-- The records that follow. -/
  records : List Bytes
  /-- The torn end of the file, if any. -/
  tail : Bytes
  /-- The records can be read back. -/
  readable : ∀ p ∈ records, p.length ≤ maxPayloadLen
  /-- What comes after them cannot. -/
  torn : tail = [] ∨ readRecord tail = .fail ()

namespace Chunk

/-- The file. -/
def file (c : Chunk) : ℕ × Bytes := (c.segment, c.front ++ (frames c.records ++ c.tail))

/-- Where the torn end begins. -/
def tornAt (c : Chunk) : LogPos := toLex (c.segment, c.front.length + (frames c.records).length)

/-- Any bytes are those of a chunk. -/
theorem exists_of_bytes (segment : ℕ) (front bytes : Bytes) :
    ∃ c : Chunk, c.segment = segment ∧ c.front = front ∧ frames c.records ++ c.tail = bytes := by
  obtain ⟨records, tail, hbytes, hreadable, htorn⟩ := exists_frames bytes
  exact ⟨⟨segment, front, records, tail, hreadable, htorn⟩, rfl, rfl, hbytes.symm⟩

/-- What is read of a chunk. -/
theorem scan_file (c : Chunk) :
    scan (fun _ => readRecord) () (c.file.2.drop c.front.length) =
      ⟨c.records, (), c.tail, if c.tail = [] then none else some ()⟩ := by
  rw [file, List.drop_left]
  rcases c.torn with h | h
  · rw [h, List.append_nil, scan_whole c.readable, if_pos rfl]
  · have hne : c.tail ≠ [] := by
      intro hnil
      rw [hnil] at h
      cases h
    rw [scan_damaged c.readable h, if_neg hne]

end Chunk

/-- The chunks that replay comes to: up to the first with a torn end. -/
def reach : List Chunk → List Chunk
  | [] => []
  | c :: cs => if c.tail = [] then c :: reach cs else [c]

theorem reach_sublist (cs : List Chunk) : (reach cs).Sublist cs := by
  induction cs with
  | nil => exact .slnil
  | cons c cs ih =>
    rw [reach]
    split
    · exact ih.cons_cons c
    · exact List.singleton_sublist.2 List.mem_cons_self

theorem reach_of_whole {cs : List Chunk} (h : ∀ c ∈ cs, c.tail = []) (ds : List Chunk) :
    reach (cs ++ ds) = cs ++ reach ds := by
  induction cs with
  | nil => rfl
  | cons c cs ih =>
    rw [List.cons_append, reach, if_pos (h c List.mem_cons_self),
      ih fun c' hc' => h c' (List.mem_cons_of_mem _ hc'), List.cons_append]

theorem reach_of_torn {cs : List Chunk} (h : ∃ c ∈ cs, c.tail ≠ []) (ds : List Chunk) :
    reach (cs ++ ds) = reach cs ∧ ∃ c ∈ reach cs, c.tail ≠ [] := by
  induction cs with
  | nil => simp at h
  | cons c cs ih =>
    rw [List.cons_append, reach, reach]
    by_cases hc : c.tail = []
    · obtain ⟨c', hc', htorn⟩ := h
      have hmem : c' ∈ cs := by
        rcases List.mem_cons.1 hc' with rfl | hmem
        · exact absurd hc htorn
        · exact hmem
      obtain ⟨heq, c'', hc'', htorn''⟩ := ih ⟨c', hmem, htorn⟩
      rw [if_pos hc, if_pos hc, heq]
      exact ⟨rfl, c'', List.mem_cons_of_mem _ hc'', htorn''⟩
    · rw [if_neg hc, if_neg hc]
      exact ⟨rfl, c, List.mem_cons_self, hc⟩

/-- Replay of chunks: the records of those it comes to, and the first torn end. -/
theorem replayListed_chunks (c : Chunk) (cs : List Chunk) (hcs : ∀ c' ∈ cs, c'.front = []) :
    (replayListed c.front.length ((c :: cs).map Chunk.file)).1 =
        (reach (c :: cs)).flatMap Chunk.records ∧
      ∀ p, (replayListed c.front.length ((c :: cs).map Chunk.file)).2 = some p ↔
        ∃ c' ∈ reach (c :: cs), c'.tail ≠ [] ∧ c'.tornAt = p := by
  induction cs generalizing c with
  | nil =>
    rw [List.map_singleton, show c.file = (c.segment, c.file.2) from rfl, replayListed, c.scan_file,
      reach]
    by_cases hc : c.tail = []
    · simp [hc, replayListed, reach]
    · simp [hc, Chunk.file, Chunk.tornAt, Nat.add_sub_assoc]
  | cons d cs ih =>
    obtain ⟨hrecords, hcorrupt⟩ := ih d fun c' hc' => hcs c' (List.mem_cons_of_mem _ hc')
    rw [hcs d List.mem_cons_self, List.length_nil] at hrecords hcorrupt
    rw [List.map_cons, show c.file = (c.segment, c.file.2) from rfl, replayListed, c.scan_file,
      reach]
    by_cases hc : c.tail = []
    · simp only [if_pos hc, hrecords, hcorrupt, List.flatMap_cons, true_and, List.mem_cons]
      intro p
      constructor
      · rintro ⟨c', hc', h⟩
        exact ⟨c', .inr hc', h⟩
      · rintro ⟨c', rfl | hc', h⟩
        · exact absurd hc h.1
        · exact ⟨c', hc', h⟩
    · simp [hc, Chunk.file, Chunk.tornAt, Nat.add_sub_assoc]

/-- What is left of a log is not accepted: a torn end before the fence, or a record that replay
comes to and that cannot be applied. -/
def Stops (committed : CommittedTxns) (t : Tiers) (fence : LogPos) (cs : List Chunk) : Prop :=
  (∃ c ∈ reach cs, c.tail ≠ [] ∧ c.tornAt < fence) ∨
    ∃ e, replayRecords committed t 0 ((reach cs).flatMap Chunk.records) = .error e

/-- Recovery of chunks fails exactly if they are not accepted. -/
theorem recoverSegments_error {committed : CommittedTxns} {t : Tiers} {fence start : LogPos}
    {segments : Segments} {c : Chunk} {cs : List Chunk}
    (h : replaySegments segments start = replayListed c.front.length ((c :: cs).map Chunk.file))
    (hcs : ∀ c' ∈ cs, c'.front = []) :
    (∃ e, recoverSegments committed segments start fence t = .error e) ↔
      Stops committed t fence (c :: cs) := by
  obtain ⟨hrecords, hcorrupt⟩ := replayListed_chunks c cs hcs
  rw [recoverSegments, replaySegments_known, h]
  simp only [Stops, hrecords]
  rcases hreplay : replayRecords committed t 0 ((reach (c :: cs)).flatMap Chunk.records) with e | r
  · simp
  · rcases hc : (replayListed c.front.length ((c :: cs).map Chunk.file)).2 with _ | p
    · have hnone : ¬ ∃ c' ∈ reach (c :: cs), c'.tail ≠ [] ∧ c'.tornAt < fence := by
        rintro ⟨c', hc', htail, -⟩
        have hsome := (hcorrupt c'.tornAt).2 ⟨c', hc', htail, rfl⟩
        rw [hc] at hsome
        cases hsome
      simp [hnone]
    · obtain ⟨c', hc', htail, rfl⟩ := (hcorrupt p).1 hc
      have honly : ∀ d ∈ reach (c :: cs), d.tail ≠ [] → d.tornAt = c'.tornAt := by
        intro d hd hdtail
        have hsome := (hcorrupt d.tornAt).2 ⟨d, hd, hdtail, rfl⟩
        rw [hc] at hsome
        exact (Option.some.inj hsome).symm
      by_cases hfence : fence ≤ c'.tornAt
      · have hnone : ¬ ∃ d ∈ reach (c :: cs), d.tail ≠ [] ∧ d.tornAt < fence := by
          rintro ⟨d, hd, hdtail, hlt⟩
          rw [honly d hd hdtail] at hlt
          exact absurd hfence (not_le.2 hlt)
        simp [hfence, hnone]
      · have hsome : ∃ d ∈ reach (c :: cs), d.tail ≠ [] ∧ d.tornAt < fence :=
          ⟨c', hc', htail, not_le.1 hfence⟩
        simp [hfence, hsome]

/-! ### Logs with holes -/

/-- A log as a manifest finds it: files from before the start of replay, the file in which replay
starts, and those after it. -/
structure LogImage where
  /-- The files before. -/
  older : Segments
  /-- The file of the start, from the start on. -/
  first : Chunk
  /-- The files after it. -/
  later : List Chunk
  /-- Everything that was appended. -/
  appended : List Bytes
  /-- The files after the start are read whole. -/
  whole : ∀ c ∈ later, c.front = []
  /-- The files are listed in order. -/
  sorted : (older.map Prod.fst ++ (first :: later).map Chunk.segment).Pairwise (· < ·)
  /-- The log holds what was appended. -/
  logged : ∀ c ∈ first :: later, ∀ r ∈ c.records, r ∈ appended
  /-- No redo set is empty, so that no record is. -/
  nonempty : [] ∉ appended

/-- Damage to a log. -/
inductive Hole where
  /-- The files of these numbers are missing. -/
  | missing (gone : ℕ → Bool)
  /-- In the file `c` after the files `before`, the frames `run` after the frames `a` are
  overwritten with zeros. -/
  | zeroed (before : List Chunk) (c : Chunk) (after : List Chunk) (a run b : List Bytes)

namespace LogImage

variable (I : LogImage)

/-- The log from the start of replay on. -/
def chunks : List Chunk := I.first :: I.later

/-- Where replay starts. -/
def start : LogPos := toLex (I.first.segment, I.first.front.length)

/-- The files. -/
def segments : Segments := I.older ++ I.chunks.map Chunk.file

/-- The files with a hole in them. -/
def damaged : Hole → Segments
  | .missing gone => I.segments.filter fun s => !gone s.1
  | .zeroed before c after a run b =>
    I.older ++ (before.map Chunk.file ++
      (c.segment, c.front ++
        (frames a ++ (List.replicate (frames run).length 0 ++ (frames b ++ c.tail)))) ::
      after.map Chunk.file)

/-- The hole is one that replay from the start up to the fence, or the order of the files, shows:
a file from that of the start to that of the fence, a file after that of the start which is not the
last, or frames between start and fence. -/
def Shows (fence : LogPos) : Hole → Prop
  | .missing gone => ∃ j ∈ I.segments.map Prod.fst, gone j = true ∧
    (I.first.segment ≤ j ∧ j ≤ (ofLex fence).1 ∨
      I.first.segment < j ∧ ∃ i ∈ I.segments.map Prod.fst, gone i = false ∧ j < i)
  | .zeroed before c after a run b =>
    I.chunks = before ++ c :: after ∧ c.records = a ++ (run ++ b) ∧ run ≠ [] ∧
      toLex (c.segment, c.front.length + (frames (a ++ run)).length) ≤ fence

/-- The hole is refused: recovery fails, and replay yields appended records only. -/
def Refuses (committed : CommittedTxns) (t : Tiers) (fence : LogPos) (hole : Hole) : Prop :=
  (∃ e, recoverSegments committed (I.damaged hole) I.start fence t = .error e) ∧
    ∀ r ∈ (replaySegments (knownSegments (I.damaged hole)) I.start).1, r ∈ I.appended

/-- What is left is not accepted: the file of the start is there and the files that are left stop
replay, or replay stops at a torn end before it comes to the zeros. -/
def StopsAt (committed : CommittedTxns) (t : Tiers) (fence : LogPos) : Hole → Prop
  | .missing gone => gone I.first.segment = false ∧
    Stops committed t fence (I.chunks.filter fun c => !gone c.segment)
  | .zeroed before .. => ∃ c ∈ before, c.tail ≠ []

/-- Every file but the last ends with a whole frame. -/
def Settled : Prop := ∀ c ∈ I.chunks.dropLast, c.tail = []

variable {I}

/-- Files before that of the start have other numbers. -/
theorem ne_of_older {s : ℕ × Bytes} (h : s ∈ I.older) : s.1 ≠ I.first.segment := by
  have hlt := (List.pairwise_append.1 I.sorted).2.2 s.1 (List.mem_map_of_mem h) I.first.segment
    (by simp)
  omega

theorem lt_of_before {before after : List Chunk} {c d : Chunk}
    (h : I.chunks = before ++ d :: after) (hc : c ∈ before) : c.segment < d.segment := by
  have hsorted : (I.chunks.map Chunk.segment).Pairwise (· < ·) :=
    (List.pairwise_append.1 I.sorted).2.1
  rw [h, List.map_append] at hsorted
  exact (List.pairwise_append.1 hsorted).2.2 _ (List.mem_map_of_mem hc) _ (by simp)

/-- Files that replay starts in, and others before them. -/
theorem replaySegments_older {older : Segments} (h : ∀ s ∈ older, s.1 ≠ I.first.segment)
    {s : ℕ × Bytes} (hs : s.1 = I.first.segment) (rest : Segments) :
    replaySegments (older ++ s :: rest) I.start =
      replayListed I.first.front.length (s :: rest) := by
  have hdrop : ∀ x ∈ older, decide (x.1 ≠ I.first.segment) = true := fun x hx =>
    decide_eq_true (h x hx)
  calc replaySegments (older ++ s :: rest) I.start
      = replayListed I.first.front.length
          ((older ++ s :: rest).dropWhile fun x => decide (x.1 ≠ I.first.segment)) := rfl
    _ = replayListed I.first.front.length (s :: rest) := by
      rw [List.dropWhile_append_of_pos hdrop, List.dropWhile_cons, if_neg (by simp [hs])]

/-- The start of replay is missing: nothing is read. -/
theorem replaySegments_missing {gone : ℕ → Bool} (h : gone I.first.segment = true) :
    replaySegments (I.damaged (.missing gone)) I.start = ([], none) := by
  have hdrop : (I.damaged (.missing gone)).dropWhile
      (fun x => decide (x.1 ≠ I.first.segment)) = [] := by
    refine List.dropWhile_eq_nil_iff.2 fun s hs => decide_eq_true ?_
    rintro heq
    have hleft := (List.mem_filter.1 hs).2
    rw [heq, h] at hleft
    cases hleft
  calc replaySegments (I.damaged (.missing gone)) I.start
      = replayListed I.first.front.length ((I.damaged (.missing gone)).dropWhile
          fun x => decide (x.1 ≠ I.first.segment)) := rfl
    _ = ([], none) := by rw [hdrop]; rfl

/-- The start of replay is there: what is read are the files that are left. -/
theorem replaySegments_left {gone : ℕ → Bool} (h : gone I.first.segment = false) :
    replaySegments (I.damaged (.missing gone)) I.start =
      replayListed I.first.front.length
        ((I.first :: I.later.filter fun c => !gone c.segment).map Chunk.file) := by
  have hleft : I.damaged (.missing gone) = (I.older.filter fun s => !gone s.1) ++
      I.first.file :: (I.later.filter fun c => !gone c.segment).map Chunk.file := by
    have hfirst : (!gone I.first.file.1) = true := by
      rw [show I.first.file.1 = I.first.segment from rfl, h]
      rfl
    rw [damaged, segments, List.filter_append, chunks, List.map_cons, List.filter_cons,
      if_pos hfirst, List.filter_map]
    rfl
  rw [hleft, List.map_cons]
  refine replaySegments_older (fun s hs => ne_of_older (List.mem_filter.1 hs).1) rfl _

/-- The intact log. -/
theorem replaySegments_intact :
    replaySegments I.segments I.start =
      replayListed I.first.front.length ((I.first :: I.later).map Chunk.file) := by
  rw [segments, chunks, List.map_cons]
  exact replaySegments_older (fun s hs => ne_of_older hs) rfl _

/-- **Zeros read as the empty record**: the damaged file is one that holds, after the frames `a`,
the frame of an empty record. -/
theorem exists_zeroed {c : Chunk} {a run b : List Bytes} (hrecords : c.records = a ++ (run ++ b))
    (hrun : run ≠ []) :
    ∃ d : Chunk, d.segment = c.segment ∧ d.front = c.front ∧ [] ∈ d.records ∧
      d.file = (c.segment, c.front ++
        (frames a ++ (List.replicate (frames run).length 0 ++ (frames b ++ c.tail)))) := by
  have ha : ∀ p ∈ a, p.length ≤ maxPayloadLen := fun p hp =>
    c.readable p (by rw [hrecords]; exact List.mem_append_left _ hp)
  obtain ⟨more, hmore⟩ : ∃ more, List.replicate (frames run).length (0 : Fin 256) =
      encode [] ++ more := by
    have hlen : walHeaderLen ≤ (frames run).length := by
      obtain ⟨p, ps, rfl⟩ := List.exists_cons_of_ne_nil hrun
      rw [show p :: ps = [p] ++ ps from rfl, frames_append, frames_singleton, List.length_append,
        length_encode]
      omega
    obtain ⟨k, hk⟩ := Nat.exists_eq_add_of_le hlen
    refine ⟨List.replicate k 0, ?_⟩
    rw [hk, List.replicate_add, show List.replicate walHeaderLen (0 : Fin 256) = encode [] by
      decide]
  obtain ⟨d, hsegment, hfront, hbytes⟩ := Chunk.exists_of_bytes c.segment c.front
    (frames a ++ (List.replicate (frames run).length 0 ++ (frames b ++ c.tail)))
  refine ⟨d, hsegment, hfront, ?_, ?_⟩
  · -- the records of `d` are what a scan finds
    have hscan := d.scan_file
    rw [Chunk.file, List.drop_left, hbytes, hmore, List.append_assoc] at hscan
    have hshort : ([] : Bytes).length ≤ maxPayloadLen := Nat.zero_le _
    have hcons := scan_frames_cons ha hshort (more ++ (frames b ++ c.tail))
    rw [hscan] at hcons
    simp only at hcons
    rw [hcons]
    simp
  · rw [Chunk.file, hsegment, hfront, hbytes]

/-- The files that are left of those that hold records. -/
theorem filter_chunks {gone : ℕ → Bool} (h : gone I.first.segment = false) :
    (I.chunks.filter fun c => !gone c.segment) =
      I.first :: I.later.filter fun c => !gone c.segment := by
  rw [chunks, List.filter_cons, h]
  rfl

/-- Missing files: recovery fails exactly if the files that are left stop it; replay yields
appended records in any case. -/
theorem refuses_missing {committed : CommittedTxns} {t : Tiers} {fence : LogPos}
    (gone : ℕ → Bool) :
    I.Refuses committed t fence (.missing gone) ↔ I.StopsAt committed t fence (.missing gone) := by
  rcases hgone : gone I.first.segment with _ | _
  · have hleft := replaySegments_left hgone
    have hwhole : ∀ c ∈ I.later.filter fun c => !gone c.segment, c.front = [] := fun c hc =>
      I.whole c (List.mem_filter.1 hc).1
    have hlogged : ∀ r ∈ (replaySegments (knownSegments (I.damaged (.missing gone))) I.start).1,
        r ∈ I.appended := by
      intro r hr
      rw [replaySegments_known, hleft, (replayListed_chunks _ _ hwhole).1] at hr
      obtain ⟨c, hc, hrc⟩ := List.mem_flatMap.1 hr
      refine I.logged c ?_ r hrc
      exact ((List.Sublist.refl _).cons_cons I.first |>.trans
        (List.filter_sublist.cons_cons I.first)).subset ((reach_sublist _).subset hc)
    rw [Refuses, and_iff_left hlogged, recoverSegments_error hleft hwhole, StopsAt,
      filter_chunks hgone, and_iff_right hgone]
  · -- replay ends before it has begun
    have hok : recoverSegments committed (I.damaged (.missing gone)) I.start fence t =
        .ok (t, 0) := by
      rw [recoverSegments, replaySegments_known, replaySegments_missing hgone]
      rfl
    constructor
    · rintro ⟨⟨e, he⟩, -⟩
      rw [hok] at he
      cases he
    · rintro ⟨hleft, -⟩
      rw [hgone] at hleft
      cases hleft

/-- Zeros: replay that comes to them yields a record that was never appended. -/
theorem refuses_zeroed {committed : CommittedTxns} {t : Tiers} {fence : LogPos}
    {before after : List Chunk} {c : Chunk} {a run b : List Bytes}
    (h : I.Shows fence (.zeroed before c after a run b)) :
    I.Refuses committed t fence (.zeroed before c after a run b) ↔
      I.StopsAt committed t fence (.zeroed before c after a run b) := by
  obtain ⟨hchunks, hrecords, hrun, hfence⟩ := h
  obtain ⟨d, hsegment, hfront, hempty, hfile⟩ := exists_zeroed hrecords hrun
  -- the damaged log, as chunks
  have hdamaged : I.damaged (.zeroed before c after a run b) =
      I.older ++ (before ++ d :: after).map Chunk.file := by
    rw [damaged, List.map_append, List.map_cons, hfile]
  obtain ⟨first, later, hcs, hnum, hlen, hwhole⟩ : ∃ first later, before ++ d :: after =
      first :: later ∧ first.segment = I.first.segment ∧
      first.front.length = I.first.front.length ∧ ∀ c' ∈ later, c'.front = [] := by
    have hwhole := I.whole
    rcases before with _ | ⟨c₀, before⟩
    · obtain ⟨rfl, rfl⟩ := List.cons.inj hchunks
      exact ⟨d, I.later, rfl, hsegment, by rw [hfront], hwhole⟩
    · obtain ⟨rfl, hlater⟩ := List.cons.inj hchunks
      refine ⟨I.first, before ++ d :: after, rfl, rfl, rfl, fun c' hc' => ?_⟩
      rw [hlater] at hwhole
      rcases List.mem_append.1 hc' with hc' | hc'
      · exact hwhole c' (List.mem_append_left _ hc')
      · rcases List.mem_cons.1 hc' with rfl | hc'
        · rw [hfront]
          exact hwhole c (by simp)
        · exact hwhole c' (by simp [hc'])
  have hreplay : replaySegments (I.damaged (.zeroed before c after a run b)) I.start =
      replayListed first.front.length ((first :: later).map Chunk.file) := by
    rw [hdamaged, hcs, List.map_cons, hlen]
    exact replaySegments_older (fun s hs => ne_of_older hs) hnum _
  rw [Refuses, StopsAt, recoverSegments_error hreplay hwhole, replaySegments_known, hreplay,
    (replayListed_chunks first later hwhole).1, ← hcs]
  by_cases htorn : ∃ c' ∈ before, c'.tail ≠ []
  · -- replay stops before the zeros, and before the fence
    obtain ⟨hreach, c', hc', htail⟩ := reach_of_torn htorn (d :: after)
    have hmem : c' ∈ before := (reach_sublist _).subset hc'
    have hlt : c'.tornAt < fence := by
      refine lt_of_lt_of_le ?_ hfence
      have hseg := lt_of_before hchunks hmem
      exact Prod.Lex.toLex_lt_toLex.2 (.inl hseg)
    refine iff_of_true ⟨.inl ⟨c', by rw [hreach]; exact hc', htail, hlt⟩, ?_⟩ htorn
    intro r hr
    rw [hreach] at hr
    obtain ⟨c'', hc'', hrc⟩ := List.mem_flatMap.1 hr
    refine I.logged c'' ?_ r hrc
    rw [show I.first :: I.later = before ++ c :: after from hchunks]
    exact List.mem_append_left _ ((reach_sublist _).subset hc'')
  · push Not at htorn
    refine iff_of_false ?_ (by push Not; exact htorn)
    rintro ⟨-, hall⟩
    refine I.nonempty (hall [] ?_)
    rw [reach_of_whole htorn]
    refine List.mem_flatMap.2 ⟨d, List.mem_append_right _ ?_, hempty⟩
    rw [reach]
    split
    · exact List.mem_cons_self
    · exact List.mem_singleton.2 rfl

/-- What is left of a log that is recovered is recovered too. -/
theorem not_stops_of_recovered {committed : CommittedTxns} {t : Tiers} {fence : LogPos}
    (hsettled : I.Settled) (ht : Sane t) {r : Tiers × ℕ}
    (hok : recoverSegments committed I.segments I.start fence t = .ok r) {cs : List Chunk}
    (hsub : cs.Sublist I.chunks) : ¬ Stops committed t fence cs := by
  have hintact : ¬ Stops committed t fence I.chunks := by
    intro h
    obtain ⟨e, he⟩ := (recoverSegments_error replaySegments_intact I.whole).2 h
    rw [hok] at he
    cases he
  have hreach : reach I.chunks = I.chunks := by
    have hne : I.chunks ≠ [] := List.cons_ne_nil _ _
    have hlast := List.dropLast_append_getLast hne
    rw [← hlast, reach_of_whole hsettled, reach]
    split
    · rfl
    · rfl
  rw [Stops, hreach] at hintact
  push Not at hintact
  obtain ⟨htorn, hreplay⟩ := hintact
  rintro (⟨c, hc, htail, hlt⟩ | ⟨e, he⟩)
  · exact absurd hlt (not_lt.2 (htorn c (hsub.subset ((reach_sublist cs).subset hc)) htail))
  · rcases hall : replayRecords committed t 0 (I.chunks.flatMap Chunk.records) with e' | r'
    · exact hreplay e' hall
    · have hrecords : ((reach cs).flatMap Chunk.records).Sublist
          (I.chunks.flatMap Chunk.records) := ((reach_sublist cs).trans hsub).flatMap _
      obtain ⟨r'', hr''⟩ := ht.within.replayRecords hrecords hall 0
      rw [hr''] at he
      cases he

/-! ### The logs of lives -/

theorem numbered_append (i : ℕ) (as bs : List Bytes) :
    numbered i (as ++ bs) = numbered i as ++ numbered (i + as.length) bs := by
  induction as generalizing i with
  | nil => rfl
  | cons a as ih =>
    rw [List.cons_append, numbered, numbered, ih, List.length_cons, List.cons_append,
      Nat.add_assoc, Nat.add_comm 1]

/-- Whole files as chunks. -/
theorem exists_chunks (i : ℕ) (contents : List (List Bytes × Bytes))
    (h : ∀ x ∈ contents, (∀ p ∈ x.1, p.length ≤ maxPayloadLen) ∧
      (x.2 = [] ∨ readRecord x.2 = .fail ())) :
    ∃ cs : List Chunk, cs.map Chunk.file = numbered i (contents.map fun x => frames x.1 ++ x.2) ∧
      cs.map (fun c => (c.records, c.tail)) = contents ∧ ∀ c ∈ cs, c.front = [] := by
  induction contents generalizing i with
  | nil => exact ⟨[], rfl, rfl, fun c hc => (nomatch hc)⟩
  | cons x contents ih =>
    obtain ⟨hreadable, htorn⟩ := h x List.mem_cons_self
    obtain ⟨cs, hfile, hcontents, hfront⟩ := ih (i + 1) fun y hy => h y (List.mem_cons_of_mem _ hy)
    refine ⟨⟨i, [], x.1, x.2, hreadable, htorn⟩ :: cs, ?_, ?_, ?_⟩
    · rw [List.map_cons, hfile]
      rfl
    · rw [List.map_cons, hcontents]
    · rintro c (_ | ⟨_, hc⟩)
      · rfl
      · exact hfront c hc

/-- **A log as a manifest finds it**, from the contents of its files and the place in which replay
starts. -/
theorem exists_of_contents {ps qs : List (List Bytes × Bytes)} {rs rs' : List Bytes} {tail : Bytes}
    (h : ∀ x ∈ (rs', tail) :: qs, (∀ p ∈ x.1, p.length ≤ maxPayloadLen) ∧
      (x.2 = [] ∨ readRecord x.2 = .fail ())) {appended : List Bytes} (hempty : [] ∉ appended)
    (hlogged : ∀ x ∈ (rs', tail) :: qs, ∀ r ∈ x.1, r ∈ appended) :
    ∃ I : LogImage, I.segments =
        numbered 0 ((ps ++ (rs ++ rs', tail) :: qs).map fun x => frames x.1 ++ x.2) ∧
      I.start = toLex (ps.length, (frames rs).length) ∧ I.appended = appended ∧
      (I.Settled ↔ ∀ x ∈ ((rs', tail) :: qs).dropLast, x.2 = []) := by
  obtain ⟨hreadable, htorn⟩ := h _ List.mem_cons_self
  obtain ⟨later, hfile, hcontents, hfront⟩ :=
    exists_chunks (ps.length + 1) qs fun x hx => h x (List.mem_cons_of_mem _ hx)
  let first : Chunk := ⟨ps.length, frames rs, rs', tail, hreadable, htorn⟩
  have hchunks : (first :: later).map (fun c => (c.records, c.tail)) = (rs', tail) :: qs := by
    rw [List.map_cons, hcontents]
  have hsegments : later.map Chunk.segment = List.range' (ps.length + 1) qs.length := by
    have := congrArg (List.map Prod.fst) hfile
    rwa [List.map_map, map_fst_numbered, List.length_map] at this
  have hsorted : ((numbered 0 (ps.map fun x => frames x.1 ++ x.2)).map Prod.fst ++
      (first :: later).map Chunk.segment).Pairwise (· < ·) := by
    rw [map_fst_numbered, List.length_map, List.map_cons, hsegments, ← List.range'_succ]
    have hall : List.range' 0 ps.length ++ List.range' ps.length (qs.length + 1) =
        List.range' 0 (ps.length + (qs.length + 1)) := by
      have := List.range'_append_1 (s := 0) (m := ps.length) (n := qs.length + 1)
      rwa [Nat.zero_add] at this
    rw [show first.segment = ps.length from rfl, hall]
    exact List.pairwise_lt_range'
  have hlog : ∀ c ∈ first :: later, ∀ r ∈ c.records, r ∈ appended := by
    intro c hc r hr
    have hmem := List.mem_map_of_mem (f := fun c : Chunk => (c.records, c.tail)) hc
    rw [hchunks] at hmem
    exact hlogged _ hmem r hr
  have hfiles : numbered 0 (ps.map fun x => frames x.1 ++ x.2) ++ (first :: later).map Chunk.file =
      numbered 0 ((ps ++ (rs ++ rs', tail) :: qs).map fun x => frames x.1 ++ x.2) := by
    rw [List.map_cons, hfile, List.map_append, numbered_append, List.length_map, Nat.zero_add,
      List.map_cons, numbered]
    simp [Chunk.file, first]
  have hsettled : (∀ c ∈ (first :: later).dropLast, c.tail = []) ↔
      ∀ x ∈ ((rs', tail) :: qs).dropLast, x.2 = [] := by
    rw [← hchunks, ← List.map_dropLast]
    simp only [List.mem_map, forall_exists_index, and_imp, forall_apply_eq_imp_iff₂]
  exact ⟨⟨_, first, later, appended, hfront, hsorted, hlog, hempty⟩, hfiles, rfl, rfl, hsettled⟩

/-- The log of lives that each began on a readable one is such a log, wherever replay starts between
two frames, and it is torn in its last file at most. -/
theorem exists_of_lives {lives : List Life} (hs : Sound lives) (hdisk : disk lives ≠ [])
    (hempty : ∀ r ∈ WalLog.appended [] lives, r.1 ≠ []) :
    ∃ closed recent debris, Resting (disk lives) closed recent debris ∧
      ∀ as rs rs' bs, closed ++ [recent] = as ++ (rs ++ rs') :: bs →
        ∃ I : LogImage, I.segments = numbered 0 ((disk lives).map LogFile.bytes) ∧
          I.start = toLex (as.length, (frames rs).length) ∧
          I.appended = (WalLog.appended [] lives).map Prod.fst ∧ I.Settled := by
  obtain ⟨hnil, -⟩ | ⟨e, closed, recent, debris, kept, hrest, hkept, hsub, -, -⟩ := keeps_lives hs
  · exact absurd hnil hdisk
  refine ⟨closed, recent, debris, hrest, fun as rs rs' bs hsplit => ?_⟩
  have hdebris : debris = [] ∨ readRecord debris = .fail () := by
    rcases hrest.torn with h | ⟨payload, n, hp, hpos, hn, rfl⟩
    · exact .inl h
    · exact .inr (readRecord_torn hp hpos hn)
  -- the contents of the files: only the last may end torn
  obtain ⟨ps, qs, tail, hcontents, hps, hsettled⟩ : ∃ ps qs tail,
      closed.map (fun rs => (rs, ([] : Bytes))) ++ [(recent, debris)] =
        ps ++ (rs ++ rs', tail) :: qs ∧ ps.length = as.length ∧
      ∀ x ∈ ((rs', tail) :: qs).dropLast, x.2 = [] := by
    rcases List.eq_nil_or_concat bs with rfl | ⟨bs, last, rfl⟩
    · obtain ⟨rfl, hlast⟩ := List.append_inj' hsplit rfl
      obtain rfl := List.head_eq_of_cons_eq hlast
      exact ⟨closed.map fun rs => (rs, []), [], debris, rfl, List.length_map _,
        fun x hx => (nomatch hx)⟩
    · rw [List.concat_eq_append, ← List.cons_append, ← List.append_assoc] at hsplit
      obtain ⟨rfl, hlast⟩ := List.append_inj' hsplit rfl
      obtain rfl := List.head_eq_of_cons_eq hlast
      refine ⟨as.map fun rs => (rs, []), bs.map (fun rs => (rs, [])) ++ [(recent, debris)], [], ?_,
        List.length_map _, ?_⟩
      · simp
      · intro x hx
        rw [← List.cons_append, List.dropLast_concat] at hx
        rcases List.mem_cons.1 hx with rfl | hx
        · rfl
        · obtain ⟨_, -, rfl⟩ := List.mem_map.1 hx
          rfl
  have hall : ∀ x ∈ closed.map (fun rs => (rs, ([] : Bytes))) ++ [(recent, debris)],
      ((∀ p ∈ x.1, p.length ≤ maxPayloadLen) ∧ (x.2 = [] ∨ readRecord x.2 = .fail ())) ∧
        ∀ r ∈ x.1, r ∈ (WalLog.appended [] lives).map Prod.fst := by
    have hlogged : ∀ records ∈ closed ++ [recent], ∀ r ∈ records,
        r ∈ (WalLog.appended [] lives).map Prod.fst := by
      intro records hrecords r hr
      have hmem : r ∈ closed.flatten ++ recent := by
        rw [show closed.flatten ++ recent = (closed ++ [recent]).flatten by simp]
        exact List.mem_flatten.2 ⟨records, hrecords, hr⟩
      rw [hkept] at hmem
      exact (hsub.map Prod.fst).subset hmem
    intro x hx
    rcases List.mem_append.1 hx with hx | hx
    · obtain ⟨records, hrecords, rfl⟩ := List.mem_map.1 hx
      have hmem := List.mem_append_left [recent] hrecords
      exact ⟨⟨hrest.readable _ hmem, .inl rfl⟩, hlogged _ hmem⟩
    · obtain rfl := List.mem_singleton.1 hx
      have hmem : recent ∈ closed ++ [recent] := by simp
      exact ⟨⟨hrest.readable _ hmem, hdebris⟩, hlogged _ hmem⟩
  rw [hcontents] at hall
  have hfirst := hall (rs ++ rs', tail) (by simp)
  have hread : ∀ x ∈ (rs', tail) :: qs, (∀ p ∈ x.1, p.length ≤ maxPayloadLen) ∧
      (x.2 = [] ∨ readRecord x.2 = .fail ()) := by
    rintro x (_ | ⟨_, hx⟩)
    · exact ⟨fun p hp => hfirst.1.1 p (List.mem_append_right _ hp), hfirst.1.2⟩
    · exact (hall x (List.mem_append_right _ (List.mem_cons_of_mem _ hx))).1
  have hne : [] ∉ (WalLog.appended [] lives).map Prod.fst := by
    intro hmem
    obtain ⟨r, hr, hnil⟩ := List.mem_map.1 hmem
    exact hempty r hr hnil
  have hlogged : ∀ x ∈ (rs', tail) :: qs, ∀ r ∈ x.1,
      r ∈ (WalLog.appended [] lives).map Prod.fst := by
    rintro x (_ | ⟨_, hx⟩)
    · exact fun r hr => hfirst.2 r (List.mem_append_right _ hr)
    · exact (hall x (List.mem_append_right _ (List.mem_cons_of_mem _ hx))).2
  obtain ⟨I, hsegments, hstart, happended, hset⟩ := exists_of_contents hread hne hlogged
  refine ⟨I, ?_, by rw [hstart, hps], happended, hset.2 hsettled⟩
  rw [hsegments, ← hcontents, hrest.bytes]
  simp [Function.comp_def]

end LogImage

/-- **Holes in the log.**  Take a log from the start of replay on and a hole that the order of its
files or the fence shows.  The hole is refused exactly if what is left is no log that is accepted:
for missing files, if the file of the start is there and the others stop replay; for zeros, if
replay stops before it comes to them.  Nothing of this happens in a log that is torn in its last
file at most and that is recovered without the hole: there every hole is missed. -/
theorem hole_refused_iff (I : LogImage) (committed : CommittedTxns) (t : Tiers) (fence : LogPos)
    (hole : Hole) (h : I.Shows fence hole) :
    (I.Refuses committed t fence hole ↔ I.StopsAt committed t fence hole) ∧
      (I.Settled → Sane t →
        (∃ r, recoverSegments committed I.segments I.start fence t = .ok r) →
          ¬ I.Refuses committed t fence hole) := by
  have hiff : I.Refuses committed t fence hole ↔ I.StopsAt committed t fence hole := by
    cases hole with
    | missing gone => exact LogImage.refuses_missing gone
    | zeroed before c after a run b => exact LogImage.refuses_zeroed h
  refine ⟨hiff, fun hsettled ht hrec hrefused => ?_⟩
  obtain ⟨r, hr⟩ := hrec
  cases hole with
  | missing gone =>
    obtain ⟨-, hstops⟩ := hiff.1 hrefused
    exact LogImage.not_stops_of_recovered hsettled ht hr List.filter_sublist hstops
  | zeroed before c after a run b =>
    obtain ⟨c', hc', htail⟩ := hiff.1 hrefused
    refine htail (hsettled c' ?_)
    rw [h.1, List.dropLast_append_of_ne_nil (List.cons_ne_nil _ _)]
    exact List.mem_append_left _ hc'

/-- The record of an insert. -/
def sampleRecord : Bytes :=
  Redo.frame (.insert (Version.mkOpen [107] 20 8 ⟨2, 20, [98]⟩ (some [118])))

/-- A log of one record. -/
def sampleLog : LogImage where
  older := []
  first := ⟨0, [], [sampleRecord], [], by decide, .inl rfl⟩
  later := []
  appended := [sampleRecord]
  whole := fun c hc => nomatch hc
  sorted := by simp
  logged := by simp
  nonempty := by decide

/-- The end of the log is known durable. -/
def sampleFence : LogPos := toLex (0, (frames [sampleRecord]).length)

/-- The file of the log. -/
theorem sampleLog_shows_missing : sampleLog.Shows sampleFence (.missing fun _ => true) :=
  ⟨0, by simp [sampleLog, LogImage.segments, LogImage.chunks, Chunk.file], rfl,
    .inl ⟨le_rfl, le_rfl⟩⟩

/-- The one frame of the log. -/
theorem sampleLog_shows_zeroed :
    sampleLog.Shows sampleFence (.zeroed [] sampleLog.first [] [] [sampleRecord] []) :=
  ⟨rfl, rfl, List.cons_ne_nil _ _, by
    simp [sampleLog, sampleFence]⟩

theorem hole_refused_sample :
    (sampleLog.Refuses .all {} sampleFence (.missing fun _ => true) ↔
        sampleLog.StopsAt .all {} sampleFence (.missing fun _ => true)) ∧
      (sampleLog.Settled → Sane {} →
        (∃ r, recoverSegments .all sampleLog.segments sampleLog.start sampleFence {} = .ok r) →
          ¬ sampleLog.Refuses .all {} sampleFence (.missing fun _ => true)) :=
  hole_refused_iff sampleLog .all {} sampleFence (.missing fun _ => true) sampleLog_shows_missing

/-- **Holes that are missed**: without its only file, the log is recovered as an empty one; with
zeros in place of its only frame, replay yields a record that was not appended. -/
theorem holes_missed :
    (sampleLog.Shows sampleFence (.missing fun _ => true) ∧
      recoverSegments .all (sampleLog.damaged (.missing fun _ => true)) sampleLog.start
        sampleFence {} = .ok ({}, 0) ∧
      ¬ sampleLog.Refuses .all {} sampleFence (.missing fun _ => true)) ∧
    (sampleLog.Shows sampleFence (.zeroed [] sampleLog.first [] [] [sampleRecord] []) ∧
      ¬ sampleLog.Refuses .all {} sampleFence
        (.zeroed [] sampleLog.first [] [] [sampleRecord] [])) := by
  refine ⟨⟨sampleLog_shows_missing, rfl, fun h => ?_⟩, sampleLog_shows_zeroed, fun h => ?_⟩
  · have hgone := ((LogImage.refuses_missing _).1 h).1
    cases hgone
  · obtain ⟨c, hc, -⟩ := (LogImage.refuses_zeroed sampleLog_shows_zeroed).1 h
    cases hc

end WalLog

end SteleDb
