import SteleDb.Storage.Engine
import SteleDb.Storage.RedoCodec
import SteleDb.Storage.WalLog

/-!
# Damage to the log

Recovery replays the log from a floor up to the first frame that it cannot read.  It has to tell an
append that a crash has torn from damage to a record that was acknowledged, and it has one fact to
go by: the fence, the durable end at the last manifest record.  Damage before the fence is an error;
from the fence on it is taken for a torn end, and recovery succeeds with what comes before.

* `recoverImage` : recovery from the bytes of the log;
* `recover_damaged_iff` : a frame that is altered in place is reported, or was not needed, exactly
  if it starts before the fence;
* `recover_drops_acknowledged` : with no manifest record there is no fence, and recovery drops the
  whole log.
-/

namespace SteleDb

namespace WalLog

/-- Read the log from a position on: the rest of its file, then the files after it. -/
def replayAt (files : List Bytes) (position : LogPos) : List Bytes × Option LogPos :=
  let i := (ofLex position).1
  let offset := (ofLex position).2
  match files[i]? with
  | none => ([], none)
  | some file =>
    let s := scan (fun _ => readRecord) () (file.drop offset)
    match s.error with
    | some () => (s.records, some (toLex (i, file.length - s.rest.length)))
    | none =>
      let (records, corrupt) := replayFrom (i + 1) (files.drop (i + 1))
      (s.records ++ records, corrupt)

/-! ### Frames up to a damaged one -/

variable {clean : List (List Bytes)} {before : List Bytes} {bad : Bytes}

/-- Whole frames up to one that cannot be read. -/
theorem scan_damaged (h : ∀ p ∈ before, p.length ≤ maxPayloadLen)
    (hbad : readRecord bad = .fail ()) :
    scan (fun _ => readRecord) () (frames before ++ bad) = ⟨before, (), bad, some ()⟩ := by
  have hscan := format.scan_encodeAll_append () h bad
  have htail : scan format.read () bad = ⟨[], (), bad, some ()⟩ :=
    scan_of_fail ((format_read bad).trans hbad)
  rw [htail, Scan.prepend, List.append_nil] at hscan
  exact hscan

/-- A whole frame, then anything. -/
theorem scan_frames_cons (h : ∀ p ∈ before, p.length ≤ maxPayloadLen) {payload : Bytes}
    (hp : payload.length ≤ maxPayloadLen) (rest : Bytes) :
    (scan (fun _ => readRecord) () (frames before ++ (encode payload ++ rest))).records =
      before ++ payload :: (scan (fun _ => readRecord) () rest).records := by
  have hall : ∀ p ∈ before ++ [payload], p.length ≤ maxPayloadLen := by
    intro p hmem
    rcases List.mem_append.1 hmem with hmem | hmem
    · exact h p hmem
    · rwa [List.mem_singleton.1 hmem]
  have hscan := format.scan_encodeAll_append () hall rest
  have hbytes : format.encodeAll () (before ++ [payload]) ++ rest =
      frames before ++ (encode payload ++ rest) := by
    rw [show format.encodeAll () (before ++ [payload]) = frames (before ++ [payload]) from rfl,
      frames_append, frames_singleton, List.append_assoc]
  rw [hbytes] at hscan
  have hrecords := congrArg Scan.records hscan
  rw [Scan.prepend, List.append_assoc] at hrecords
  exact hrecords

theorem scan_whole (h : ∀ p ∈ before, p.length ≤ maxPayloadLen) :
    scan (fun _ => readRecord) () (frames before) = ⟨before, (), [], none⟩ := by
  have hscan := scan_frames h (.inl rfl : Torn [])
  rwa [List.append_nil, if_pos rfl] at hscan

/-- Replay of whole files and a damaged one; what comes after it is not read. -/
theorem replayFrom_damaged (hclean : ∀ rs ∈ clean, ∀ p ∈ rs, p.length ≤ maxPayloadLen)
    (hbefore : ∀ p ∈ before, p.length ≤ maxPayloadLen) (hbad : readRecord bad = .fail ())
    (later : List Bytes) (i : ℕ) :
    replayFrom i (clean.map frames ++ (frames before ++ bad) :: later) =
      (clean.flatten ++ before, some (toLex (i + clean.length, (frames before).length))) := by
  induction clean generalizing i with
  | nil =>
    rw [List.map_nil, List.nil_append, replayFrom, scan_damaged hbefore hbad]
    simp
  | cons rs clean ih =>
    rw [List.map_cons, List.cons_append, replayFrom, scan_whole (hclean rs (by simp))]
    simp only
    rw [ih (fun rs' hrs' => hclean rs' (List.mem_cons_of_mem _ hrs')) (i + 1)]
    simp only [List.flatten_cons, List.append_assoc, List.length_cons]
    rw [Nat.add_assoc, Nat.add_comm 1]

/-- Replay of whole files and one that goes on after a whole frame. -/
theorem replayFrom_frames_cons (hclean : ∀ rs ∈ clean, ∀ p ∈ rs, p.length ≤ maxPayloadLen)
    (hbefore : ∀ p ∈ before, p.length ≤ maxPayloadLen) {payload : Bytes}
    (hp : payload.length ≤ maxPayloadLen) (rest : Bytes) (later : List Bytes) (i : ℕ) :
    ∃ more, (replayFrom i (clean.map frames ++
      (frames before ++ (encode payload ++ rest)) :: later)).1 =
        clean.flatten ++ before ++ payload :: more := by
  induction clean generalizing i with
  | nil =>
    have hscan := scan_frames_cons hbefore hp rest
    rw [List.map_nil, List.nil_append, replayFrom]
    simp only
    split
    · exact ⟨_, hscan⟩
    · refine ⟨(scan (fun _ => readRecord) () rest).records ++ (replayFrom (i + 1) later).1, ?_⟩
      simp only [hscan, List.flatten_nil, List.nil_append, List.append_assoc, List.cons_append]
  | cons rs clean ih =>
    obtain ⟨more, hmore⟩ := ih (fun rs' hrs' => hclean rs' (List.mem_cons_of_mem _ hrs')) (i + 1)
    refine ⟨more, ?_⟩
    rw [List.map_cons, List.cons_append, replayFrom, scan_whole (hclean rs (by simp))]
    simp only [hmore, List.flatten_cons, List.append_assoc]

/-- The position is no byte inside the frames of the files `clean`, the frames `before` in the file
after them, or the frame of `payload` that follows. -/
inductive Boundary (clean : List (List Bytes)) (before : List Bytes) (payload : Bytes) :
    LogPos → Prop
  | clean {as bs : List (List Bytes)} {rs rs' : List Bytes} (h : clean = as ++ (rs ++ rs') :: bs) :
      Boundary clean before payload (toLex (as.length, (frames rs).length))
  | before {rs rs' : List Bytes} (h : before = rs ++ rs') :
      Boundary clean before payload (toLex (clean.length, (frames rs).length))
  | after {p : LogPos}
      (h : toLex (clean.length, (frames before).length + (encode payload).length) ≤ p) :
      Boundary clean before payload p

/-- A position after the start of the frame is after its end. -/
theorem Boundary.after_of_lt {payload : Bytes} {p : LogPos}
    (h : Boundary clean before payload p)
    (hlt : toLex (clean.length, (frames before).length) < p) :
    toLex (clean.length, (frames before).length + (encode payload).length) ≤ p := by
  cases h with
  | @clean as bs rs rs' h =>
    rw [Prod.Lex.toLex_lt_toLex, h] at hlt
    simp only [List.length_append, List.length_cons] at hlt
    omega
  | @before rs rs' h =>
    rw [Prod.Lex.toLex_lt_toLex, h, frames_append] at hlt
    simp only [List.length_append] at hlt
    omega
  | after h => exact h

/-- The bytes of a log: files of whole frames, one that begins with whole frames, and any others. -/
def image (clean : List (List Bytes)) (before : List Bytes) (rest : Bytes) (later : List Bytes) :
    List Bytes :=
  clean.map frames ++ (frames before ++ rest) :: later

theorem getElem?_image (clean : List (List Bytes)) (before : List Bytes) (rest : Bytes)
    (later : List Bytes) :
    (image clean before rest later)[clean.length]? = some (frames before ++ rest) ∧
      (image clean before rest later).drop (clean.length + 1) = later := by
  have hlen : (clean.map frames).length = clean.length := List.length_map _
  refine ⟨?_, ?_⟩
  · rw [image, List.getElem?_append_right (by rw [hlen]), hlen, Nat.sub_self]
    rfl
  · rw [image, List.drop_append, hlen, List.drop_of_length_le (by rw [hlen]; omega)]
    simp

/-- **Reading reaches the frame**: from a position before it, a damaged frame is where replay stops,
and a whole one is among the records. -/
theorem replayAt_reaches (hclean : ∀ rs ∈ clean, ∀ p ∈ rs, p.length ≤ maxPayloadLen)
    (hbefore : ∀ p ∈ before, p.length ≤ maxPayloadLen) {payload altered rest : Bytes}
    (hp : payload.length ≤ maxPayloadLen) (hbad : readRecord (altered ++ rest) = .fail ())
    (later : List Bytes) {floor : LogPos} (hfloor : Boundary clean before payload floor)
    (hle : floor ≤ toLex (clean.length, (frames before).length)) :
    ∃ read more, replayAt (image clean before (altered ++ rest) later) floor =
        (read, some (toLex (clean.length, (frames before).length))) ∧
      (replayAt (image clean before (encode payload ++ rest) later) floor).1 =
        read ++ payload :: more := by
  have hpos : 0 < (encode payload).length := by
    rw [length_encode, walHeaderLen]
    omega
  cases hfloor with
  | @clean as bs rs rs' h =>
    subst h
    have hrs : ∀ p ∈ rs', p.length ≤ maxPayloadLen := fun p hp' =>
      hclean (rs ++ rs') (by simp) p (List.mem_append_right _ hp')
    have hbs : ∀ rs ∈ bs, ∀ p ∈ rs, p.length ≤ maxPayloadLen := fun rs' hrs' =>
      hclean rs' (by simp [hrs'])
    -- the rest of the file, and the files after it
    have himage : ∀ tail, image (as ++ (rs ++ rs') :: bs) before tail later =
        as.map frames ++ (frames rs ++ frames rs') ::
          (bs.map frames ++ (frames before ++ tail) :: later) := by
      intro tail
      rw [image, List.map_append, List.map_cons, frames_append, List.append_assoc, List.cons_append]
    have hat : ∀ tail,
        replayAt (image (as ++ (rs ++ rs') :: bs) before tail later)
            (toLex (as.length, (frames rs).length)) =
          (rs' ++
            (replayFrom (as.length + 1) (bs.map frames ++ (frames before ++ tail) :: later)).1,
            (replayFrom (as.length + 1)
              (bs.map frames ++ (frames before ++ tail) :: later)).2) := by
      intro tail
      have hlen : (as.map frames).length = as.length := List.length_map _
      have hget : (as.map frames ++ (frames rs ++ frames rs') ::
          (bs.map frames ++ (frames before ++ tail) :: later))[as.length]? =
            some (frames rs ++ frames rs') := by
        rw [List.getElem?_append_right (by rw [hlen]), hlen, Nat.sub_self]
        rfl
      have hdrop : (as.map frames ++ (frames rs ++ frames rs') ::
          (bs.map frames ++ (frames before ++ tail) :: later)).drop (as.length + 1) =
            bs.map frames ++ (frames before ++ tail) :: later := by
        rw [List.drop_append, hlen, List.drop_of_length_le (by rw [hlen]; omega)]
        simp
      rw [replayAt, himage]
      simp only [ofLex_toLex, hget, hdrop, List.drop_left, scan_whole hrs]
    obtain ⟨more, hmore⟩ := replayFrom_frames_cons hbs hbefore hp rest later (as.length + 1)
    refine ⟨rs' ++ (bs.flatten ++ before), more, ?_, ?_⟩
    · rw [hat, replayFrom_damaged hbs hbefore hbad]
      simp only [List.length_append, List.length_cons]
      rw [show as.length + 1 + bs.length = as.length + (bs.length + 1) by omega]
    · rw [hat, hmore]
      simp only [List.append_assoc]
  | @before rs rs' h =>
    subst h
    have hrs : ∀ p ∈ rs', p.length ≤ maxPayloadLen := fun p hp' =>
      hbefore p (List.mem_append_right _ hp')
    have hat : ∀ tail, replayAt (image clean (rs ++ rs') tail later)
        (toLex (clean.length, (frames rs).length)) =
          match (scan (fun _ => readRecord) () (frames rs' ++ tail)).error with
          | some () => ((scan (fun _ => readRecord) () (frames rs' ++ tail)).records,
              some (toLex (clean.length, (frames (rs ++ rs') ++ tail).length -
                (scan (fun _ => readRecord) () (frames rs' ++ tail)).rest.length)))
          | none => ((scan (fun _ => readRecord) () (frames rs' ++ tail)).records ++
              (replayFrom (clean.length + 1) later).1,
              (replayFrom (clean.length + 1) later).2) := by
      intro tail
      obtain ⟨hget, hdrop⟩ := getElem?_image clean (rs ++ rs') tail later
      rw [replayAt]
      simp only [ofLex_toLex, hget, hdrop]
      rw [frames_append, List.append_assoc, List.drop_left]
    have hscan := scan_frames_cons hrs hp rest
    refine ⟨rs', ?_⟩
    rw [hat, hat, scan_damaged hrs hbad]
    simp only [List.length_append, Nat.add_sub_cancel]
    split
    · exact ⟨_, trivial, hscan⟩
    · refine ⟨(scan (fun _ => readRecord) () rest).records ++
        (replayFrom (clean.length + 1) later).1, trivial, ?_⟩
      simp only [hscan, List.append_assoc, List.cons_append]
  | after h =>
    have := h.trans hle
    rw [Prod.Lex.toLex_le_toLex] at this
    omega

/-- **Reading starts after the frame**: it makes no difference. -/
theorem replayAt_after {payload altered rest : Bytes}
    (hlen : altered.length = (encode payload).length) (later : List Bytes) {floor : LogPos}
    (h : toLex (clean.length, (frames before).length + (encode payload).length) ≤ floor) :
    replayAt (image clean before (altered ++ rest) later) floor =
      replayAt (image clean before (encode payload ++ rest) later) floor := by
  rw [Prod.Lex.le_iff] at h
  simp only [ofLex_toLex] at h
  rcases h with hlt | ⟨heq, hle⟩
  · -- the floor is in a later file
    have hsame : ∀ tail, (image clean before tail later)[(ofLex floor).1]? =
          later[(ofLex floor).1 - (clean.length + 1)]? ∧
        (image clean before tail later).drop ((ofLex floor).1 + 1) =
          later.drop ((ofLex floor).1 - clean.length) := by
      intro tail
      have hdrop := (getElem?_image clean before tail later).2
      generalize image clean before tail later = files at hdrop ⊢
      refine ⟨?_, ?_⟩
      · rw [← hdrop, List.getElem?_drop, Nat.add_sub_cancel' hlt]
      · rw [← hdrop, List.drop_drop]
        congr 1
        omega
    simp only [replayAt, hsame]
  · -- the floor is in the same file, past the frame
    have hfile : ∀ frame : Bytes, frame.length = (encode payload).length →
        (frames before ++ (frame ++ rest)).drop (ofLex floor).2 =
          rest.drop ((ofLex floor).2 - ((frames before).length + (encode payload).length)) := by
      intro frame hframe
      rw [← List.append_assoc, List.drop_append, List.length_append, hframe,
        List.drop_of_length_le (by rw [List.length_append, hframe]; exact hle), List.nil_append]
    have hlength : (frames before ++ (altered ++ rest)).length =
        (frames before ++ (encode payload ++ rest)).length := by
      simp only [List.length_append, hlen]
    obtain ⟨hget, hdrop⟩ := getElem?_image clean before (altered ++ rest) later
    obtain ⟨hget', hdrop'⟩ := getElem?_image clean before (encode payload ++ rest) later
    simp only [replayAt, ← heq, hget, hdrop, hget', hdrop', hfile altered hlen,
      hfile (encode payload) rfl, hlength]

end WalLog

/-! ### Recovery from bytes -/

/-- A manifest record, with positions in the bytes of the log. -/
structure BytePoint where
  /-- Where replay resumes. -/
  replayFloor : WalLog.LogPos
  /-- The end of the log known durable. -/
  durableFence : WalLog.LogPos
  /-- The live segments. -/
  liveSegments : List ℕ

/-- What survives on the disk of a table. -/
structure DiskImage where
  /-- The files of the log. -/
  wal : List Bytes
  /-- The last manifest record, if there is one. -/
  point : Option BytePoint
  /-- The segment files. -/
  segments : SegmentFiles

/-- Where replay resumes: at the beginning of the log without a manifest record. -/
def DiskImage.floor (d : DiskImage) : WalLog.LogPos :=
  (d.point.map BytePoint.replayFloor).getD (toLex (0, 0))

/-- Damage from here on is taken for a torn end. -/
def DiskImage.fence (d : DiskImage) : WalLog.LogPos :=
  (d.point.map BytePoint.durableFence).getD (toLex (0, 0))

/-- Why recovery fails. -/
inductive RecoverError where
  /-- A record before the fence is damaged. -/
  | wal
  /-- A live segment cannot be read. -/
  | segment
  /-- The index cannot be rebuilt. -/
  | validity (e : ValidityError)
  /-- A record that reads well is no redo record. -/
  | redo (e : RedoCorrupt)
  /-- The tiers refuse a redo set. -/
  | apply (e : SysTimeError)
  deriving DecidableEq, Repr

/-- Apply the records that count; the number of entries applied. -/
def replayRecords (committed : CommittedTxns) :
    Tiers → ℕ → List Bytes → Except RecoverError (Tiers × ℕ)
  | t, applied, [] => .ok (t, applied)
  | t, applied, record :: records =>
    match splitRecord record with
    | .error e => .error (.redo e)
    | .ok (txnId, redoBytes) =>
      if txnId.any fun txn => !committed.admits txn then replayRecords committed t applied records
      else match decodeRedo redoBytes with
        | .error e => .error (.redo e)
        | .ok redos => match apply t redos with
          | (_, .error e) => .error (.apply e)
          | (t, .ok ()) => replayRecords committed t (applied + redos.length) records

/-- Replay the log from the floor, up to damage that the fence does not vouch for. -/
def recoverTail (committed : CommittedTxns) (d : DiskImage) (t : Tiers) :
    Except RecoverError (Tiers × ℕ) :=
  let (records, corrupt) := WalLog.replayAt d.wal d.floor
  match replayRecords committed t 0 records with
  | .error e => .error e
  | .ok r => match corrupt with
    | none => .ok r
    | some position => if d.fence ≤ position then .ok r else .error .wal

/-- A recovered table. -/
structure Recovered where
  /-- Delta tier and validity index. -/
  tiers : Tiers
  /-- The versions of the live segments. -/
  sealedVersions : List Version
  /-- The redo entries replayed. -/
  applied : ℕ

/-- Boot from the bytes of a disk. -/
def recoverImage (committed : CommittedTxns) (d : DiskImage) : Except RecoverError Recovered :=
  let live : List ℕ :=
    (KeyedMap.ofList ((d.point.map BytePoint.liveSegments).getD []) :
      KeyedMap fun i : ℕ => i).values
  match Engine.readSegments (d.segments.filter fun i _ => i ∈ live) live with
  | none => .error .segment
  | some merged =>
    match rebuildIndexFromSegments merged.versions merged.retractions {} with
    | (_, .error e) => .error (.validity e)
    | (index, .ok ()) =>
      match recoverTail committed d { delta := {}, index } with
      | .error e => .error e
      | .ok (tiers, applied) => .ok ⟨tiers, merged.versions, applied⟩

/-- What one record does: it is skipped, or its entries are applied and counted. -/
theorem replayRecords_cons_ok {committed : CommittedTxns} {t t' : Tiers} {n n' : ℕ}
    {record : Bytes} {records : List Bytes}
    (h : replayRecords committed t n (record :: records) = .ok (t', n')) :
    ∃ t₁ n₁, n ≤ n₁ ∧ replayRecords committed t₁ n₁ records = .ok (t', n') ∧
      ∀ records', replayRecords committed t n (record :: records') =
        replayRecords committed t₁ n₁ records' := by
  rcases hsplit : splitRecord record with e | ⟨txnId, redoBytes⟩
  · simp only [replayRecords, hsplit] at h
    cases h
  by_cases hskip : (txnId.any fun txn => !committed.admits txn) = true
  · simp only [replayRecords, hsplit, if_pos hskip] at h ⊢
    exact ⟨t, n, le_rfl, h, fun _ => rfl⟩
  rcases hdec : decodeRedo redoBytes with e | redos
  · simp only [replayRecords, hsplit, if_neg hskip, hdec] at h
    cases h
  rcases happ : apply t redos with ⟨t₁, e | u⟩
  · simp only [replayRecords, hsplit, if_neg hskip, hdec, happ] at h
    cases h
  · simp only [replayRecords, hsplit, if_neg hskip, hdec, happ] at h ⊢
    exact ⟨t₁, n + redos.length, Nat.le_add_right _ _, h, fun _ => rfl⟩

/-- What can be replayed can be replayed in part. -/
theorem replayRecords_append {committed : CommittedTxns} {t t' : Tiers} {n n' : ℕ}
    {records more : List Bytes} (h : replayRecords committed t n (records ++ more) = .ok (t', n')) :
    ∃ t₁ n₁, replayRecords committed t n records = .ok (t₁, n₁) ∧
      replayRecords committed t₁ n₁ more = .ok (t', n') := by
  induction records generalizing t n with
  | nil => exact ⟨t, n, rfl, h⟩
  | cons record records ih =>
    obtain ⟨t₁, n₁, -, hrest, hcons⟩ := replayRecords_cons_ok h
    rw [hcons]
    exact ih hrest

theorem le_replayRecords {committed : CommittedTxns} {t t' : Tiers} {n n' : ℕ}
    {records : List Bytes} (h : replayRecords committed t n records = .ok (t', n')) : n ≤ n' := by
  induction records generalizing t n with
  | nil => cases h; exact le_rfl
  | cons record records ih =>
    obtain ⟨t₁, n₁, hle, hrest, -⟩ := replayRecords_cons_ok h
    exact hle.trans (ih hrest)

/-- A record of entries adds to the number of those applied. -/
theorem lt_replayRecords_cons {t t' : Tiers} {n n' : ℕ} {txnId : Option TxnId} {redos : List Redo}
    {record : Bytes} {records : List Bytes} (hrecord : decodeRecord record = .ok (txnId, redos))
    (hne : redos ≠ []) (h : replayRecords .all t n (record :: records) = .ok (t', n')) :
      n < n' := by
  obtain ⟨redoBytes, hsplit, hdec⟩ : ∃ redoBytes, splitRecord record = .ok (txnId, redoBytes) ∧
      decodeRedo redoBytes = .ok redos := by
    rw [decodeRecord] at hrecord
    split at hrecord
    · cases hrecord
    · rename_i id rest hsplit
      split at hrecord
      · cases hrecord
      · rename_i rs hdec
        cases hrecord
        exact ⟨rest, hsplit, hdec⟩
  have hpos : 0 < redos.length := List.length_pos_iff.2 hne
  have hall : ¬ (txnId.any fun txn => !CommittedTxns.all.admits txn) = true := by
    cases txnId <;> simp [CommittedTxns.admits]
  rw [replayRecords, hsplit] at h
  simp only [if_neg hall, hdec] at h
  split at h
  · cases h
  · have := le_replayRecords h
    omega

/-- What is recovered is what the records that are read leave. -/
theorem recoverTail_ok {committed : CommittedTxns} {d : DiskImage} {t : Tiers} {r : Tiers × ℕ}
    (h : recoverTail committed d t = .ok r) :
    replayRecords committed t 0 (WalLog.replayAt d.wal d.floor).1 = .ok r := by
  rw [recoverTail] at h
  simp only at h
  split at h
  · cases h
  · rename_i r' hreplay
    rw [hreplay]
    split at h
    · exact h
    · split at h
      · exact h
      · cases h

/-- **Damage to the log.**  Take a log whose frames are whole up to that of a redo record, and alter
the frame in place so that it is no longer read.  Recovery fails, or finds what it would have found,
exactly if the frame starts before the fence; otherwise it succeeds and the record is missing. -/
theorem recover_damaged_iff {clean : List (List Bytes)} {before : List Bytes}
    {payload altered rest : Bytes} {later : List Bytes} {point : Option BytePoint}
    {segments : SegmentFiles} {txnId : Option TxnId} {redos : List Redo} {r : Recovered}
    (hclean : ∀ rs ∈ clean, ∀ p ∈ rs, p.length ≤ maxPayloadLen)
    (hbefore : ∀ p ∈ before, p.length ≤ maxPayloadLen) (hp : payload.length ≤ maxPayloadLen)
    (hrecord : decodeRecord payload = .ok (txnId, redos)) (hne : redos ≠ [])
    (hlen : altered.length = (WalLog.encode payload).length)
    (hbad : WalLog.readRecord (altered ++ rest) = .fail ()) :
    let start : WalLog.LogPos := toLex (clean.length, (WalLog.frames before).length)
    let intact : DiskImage :=
      ⟨WalLog.image clean before (WalLog.encode payload ++ rest) later, point, segments⟩
    let damaged : DiskImage := ⟨WalLog.image clean before (altered ++ rest) later, point, segments⟩
    WalLog.Boundary clean before payload intact.floor → intact.floor ≤ intact.fence →
    recoverImage .all intact = .ok r →
      (((∃ e, recoverImage .all damaged = .error e) ∨ recoverImage .all damaged = .ok r) ↔
        start < intact.fence) ∧
      (intact.fence ≤ start →
        ∃ r', recoverImage .all damaged = .ok r' ∧ r'.applied < r.applied) := by
  intro start intact damaged hfloor hfence hok
  have hfloor' : damaged.floor = intact.floor := rfl
  have hfence' : damaged.fence = intact.fence := rfl
  -- segments and index do not depend on the log
  obtain ⟨t₀, sealedVersions, hrest⟩ : ∃ t₀ sealedVersions, ∀ d : DiskImage, d.point = point →
      d.segments = segments → recoverImage .all d =
        match recoverTail .all d t₀ with
        | .error e => .error e
        | .ok (tiers, applied) => .ok ⟨tiers, sealedVersions, applied⟩ := by
    simp only [recoverImage] at hok
    generalize hlive : (KeyedMap.ofList ((intact.point.map BytePoint.liveSegments).getD []) :
      KeyedMap fun i : ℕ => i).values = live at hok
    rcases hread : Engine.readSegments (intact.segments.filter fun i _ => i ∈ live) live with
      _ | merged
    · rw [hread] at hok
      cases hok
    rcases hbuild : rebuildIndexFromSegments merged.versions merged.retractions {} with
      ⟨index, e | u⟩
    · rw [hread] at hok
      simp only [hbuild] at hok
      cases hok
    refine ⟨{ delta := {}, index }, merged.versions, ?_⟩
    intro d hpoint hsegments
    have hpoint' : d.point = intact.point := hpoint
    have hsegments' : d.segments = intact.segments := hsegments
    simp only [recoverImage, hpoint', hsegments', hlive, hread, hbuild]
  rw [hrest intact rfl rfl] at hok
  rw [hrest damaged rfl rfl]
  by_cases hstart : intact.floor ≤ start
  · -- replay comes to the frame
    obtain ⟨read, more, hdamaged, hintact⟩ :=
      WalLog.replayAt_reaches hclean hbefore hp hbad later hfloor hstart
    obtain ⟨t₁, n₁, hreplay, hlt⟩ : ∃ t₁ n₁, replayRecords .all t₀ 0 read = .ok (t₁, n₁) ∧
        n₁ < r.applied := by
      rcases htail : recoverTail .all intact t₀ with e | ⟨tiers, applied⟩
      · rw [htail] at hok
        cases hok
      rw [htail] at hok
      cases hok
      have hall := recoverTail_ok htail
      rw [show (WalLog.replayAt intact.wal intact.floor).1 = read ++ payload :: more from hintact]
        at hall
      obtain ⟨t₁, n₁, hread, hmore⟩ := replayRecords_append hall
      exact ⟨t₁, n₁, hread, lt_replayRecords_cons hrecord hne hmore⟩
    have htail : recoverTail .all damaged t₀ =
        if intact.fence ≤ start then .ok (t₁, n₁) else .error .wal := by
      have hread : WalLog.replayAt damaged.wal damaged.floor = (read, some start) := hdamaged
      simp only [recoverTail, hread, hreplay, hfence']
    rw [htail]
    by_cases hle : intact.fence ≤ start
    · simp only [if_pos hle]
      refine ⟨iff_of_false ?_ (not_lt.2 hle), fun _ => ⟨_, rfl, hlt⟩⟩
      rintro (⟨e, he⟩ | hsame)
      · cases he
      · cases hsame
        exact lt_irrefl _ hlt
    · simp only [if_neg hle]
      exact ⟨iff_of_true (.inl ⟨_, rfl⟩) (not_le.1 hle), fun h => absurd h hle⟩
  · -- replay begins after it
    have hafter : toLex (clean.length, (WalLog.frames before).length +
        (WalLog.encode payload).length) ≤ intact.floor :=
      hfloor.after_of_lt (not_le.1 hstart)
    have hsame : WalLog.replayAt damaged.wal damaged.floor =
        WalLog.replayAt intact.wal intact.floor := WalLog.replayAt_after hlen later hafter
    have htail : recoverTail .all damaged t₀ = recoverTail .all intact t₀ := by
      simp only [recoverTail, hsame, hfence']
    have hlt : start < intact.fence := (not_le.1 hstart).trans_le hfence
    rw [htail]
    exact ⟨iff_of_true (.inr hok) hlt, fun h => absurd h (not_le.2 hlt)⟩

/-- The record of an insert. -/
def sampleRecord : Bytes :=
  ((encodeRecord none [.insert
    (Version.mkOpen [107] 20 8 ⟨2, 20, [98]⟩ (some [118]))]).toOption).getD
    []

/-- Its frame, with one byte of the payload altered. -/
def sampleAltered : Bytes := (WalLog.encode sampleRecord).set 21 99

theorem readRecord_sampleAltered :
    WalLog.readRecord (sampleAltered ++ WalLog.encode sampleRecord) = .fail () := by
  rw [WalLog.readRecord, if_neg (by decide), if_neg (by decide)]
  simp only
  rw [if_neg (by decide), if_neg (by decide), if_neg (by decide +kernel)]

/-- A log of two records, the first of them altered, and a manifest record of which the fence is
past the first frame: recovery refuses, or finds both. -/
theorem recover_damaged_sample :
    let point : BytePoint := ⟨toLex (0, 0), toLex (0, (WalLog.encode sampleRecord).length), []⟩
    let damaged : DiskImage := ⟨[sampleAltered ++ WalLog.encode sampleRecord], some point, ∅⟩
    (∃ e, recoverImage .all damaged = .error e) ∨
      ∃ r, recoverImage .all damaged = .ok r ∧ r.applied = 2 := by
  intro point damaged
  obtain ⟨r, hok, happlied⟩ : ∃ r, recoverImage .all
      ⟨[WalLog.encode sampleRecord ++ WalLog.encode sampleRecord], some point, ∅⟩ = .ok r ∧
        r.applied = 2 := by
    have hcount : (recoverImage .all ⟨[WalLog.encode sampleRecord ++ WalLog.encode sampleRecord],
        some point, ∅⟩).toOption.map Recovered.applied = some 2 := by
      decide +kernel
    cases h : recoverImage .all ⟨[WalLog.encode sampleRecord ++ WalLog.encode sampleRecord],
        some point, ∅⟩ with
    | error e => rw [h] at hcount; cases hcount
    | ok r => rw [h] at hcount; exact ⟨r, rfl, Option.some.inj hcount⟩
  have hfloor : WalLog.Boundary [] ([] ++ []) sampleRecord (toLex (0, 0)) := .before rfl
  have hclean : ∀ rs ∈ ([] : List (List Bytes)), ∀ p ∈ rs, p.length ≤ maxPayloadLen := by simp
  have hbefore : ∀ p ∈ ([] : List Bytes), p.length ≤ maxPayloadLen := by simp
  have hrecord : decodeRecord sampleRecord =
      .ok (none, [.insert (Version.mkOpen [107] 20 8 ⟨2, 20, [98]⟩ (some [118]))]) := by
    decide
  have hiff := @recover_damaged_iff [] [] sampleRecord sampleAltered (WalLog.encode sampleRecord) []
    (some point) ∅ none _ r hclean hbefore (by decide) hrecord (by simp)
    (by decide) readRecord_sampleAltered hfloor (by decide) hok
  rcases hiff.1.2 (by decide) with he | h
  · exact .inl he
  · exact .inr ⟨r, h, happlied⟩

/-- **Acknowledged records are dropped.**  Two records are in the log and no manifest record has
been written; one byte of the first is altered.  Recovery succeeds, with neither of them. -/
theorem recover_drops_acknowledged :
    let frame := WalLog.encode sampleRecord
    sampleAltered.length = frame.length ∧
      WalLog.readRecord (sampleAltered ++ frame) = .fail () ∧
      (recoverImage .all ⟨[frame ++ frame], none, ∅⟩).toOption.map Recovered.applied = some 2 ∧
      (recoverImage .all ⟨[sampleAltered ++ frame], none, ∅⟩).toOption.map Recovered.applied =
        some 0 := by
  refine ⟨rfl, readRecord_sampleAltered, ?_⟩
  decide +kernel

end SteleDb
