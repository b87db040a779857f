import SteleDb.Storage.Rebuild
import SteleDb.Storage.WritePath

/-!
# Recovery

What the disk of an engine holds is enough to rebuild the table: the segments named by the
manifest hold it as it was at the replay floor, the log from the floor on holds the writes since
then.

A torn frame ends the log where recovery reads it; past the floor it may only stand at the end
(`Legible`).

* `Disk.Holds.recover` : recovery of a disk that holds a table rebuilds it;
* `Engine.Sound.recover` : recovery of such an engine rebuilds a table that stores the same
  histories;
* `Engine.Sound.write`, `Engine.Sound.groupCommit` : single writes and transactions keep an engine
  such, on a disk that works.
-/

namespace SteleDb

open Timeline

/-! ### What recovery reads -/

/-- What recovery reads off the manifest. -/
def Manifest.point (m : Manifest) : RecoveryPoint := m.load.getD ⟨0, 0, []⟩

/-- Recovery loses nothing of the log from the point on: a torn frame stands at the fence or past
it, and nothing whole stands behind it. -/
def Legible (log : List WalRecord) (p : RecoveryPoint) : Prop :=
  ∀ n, p.replayFloor ≤ n → log[n]? = some .torn →
    p.durableFence ≤ n ∧ ∀ r ∈ log.drop n, r = .torn

namespace Legible

variable {log : List WalRecord} {p : RecoveryPoint}

/-- A log with nothing torn from the floor on. -/
theorem of_whole (h : .torn ∉ log.drop p.replayFloor) : Legible log p := by
  intro n hn htorn
  rw [← Nat.add_sub_cancel' hn, ← List.getElem?_drop] at htorn
  exact absurd (List.mem_of_getElem? htorn) h

/-- The part of a log that a crash leaves. -/
theorem take (h : Legible log p) (m : ℕ) : Legible (log.take m) p := by
  intro n hn htorn
  rw [List.getElem?_take] at htorn
  split at htorn
  · obtain ⟨hfence, hrest⟩ := h n hn htorn
    refine ⟨hfence, fun r hr => hrest r ?_⟩
    rw [List.drop_take] at hr
    exact List.mem_of_mem_take hr
  · cases htorn

/-- A torn frame at the end, past the fence. -/
theorem concat_torn (h : Legible log p) (hfence : p.durableFence ≤ log.length) :
    Legible (log ++ [.torn]) p := by
  intro n hn htorn
  -- a frame of the old log, the new one, or none
  rcases Nat.lt_trichotomy n log.length with hlt | rfl | hgt
  · rw [List.getElem?_append_left hlt] at htorn
    obtain ⟨hle, hrest⟩ := h n hn htorn
    refine ⟨hle, fun r hr => ?_⟩
    rw [List.drop_append_of_le_length hlt.le] at hr
    rcases List.mem_append.1 hr with hr | hr
    · exact hrest r hr
    · exact List.mem_singleton.1 hr
  · refine ⟨hfence, fun r hr => ?_⟩
    rw [List.drop_left] at hr
    exact List.mem_singleton.1 hr
  · rw [List.getElem?_eq_none (by rw [List.length_append]; exact hgt)] at htorn
    cases htorn

/-- What a crash leaves of a log: a part that reaches to the fence, and possibly a torn frame. -/
theorem crashed (h : Legible log p) {log' : List WalRecord} {n : ℕ} (hfence : p.durableFence ≤ n)
    (hn : n ≤ log.length) (hlog : log' = log.take n ∨ log' = log.take n ++ [.torn]) :
    Legible log' p := by
  rcases hlog with rfl | rfl
  · exact h.take n
  · refine (h.take n).concat_torn ?_
    rw [List.length_take, Nat.min_eq_left hn]
    exact hfence

/-- A record is appended where nothing is torn. -/
theorem concat (h : .torn ∉ log.drop p.replayFloor) {r : WalRecord} (hr : r ≠ .torn) :
    Legible (log ++ [r]) p := by
  refine of_whole fun hmem => ?_
  rw [List.drop_append] at hmem
  rcases List.mem_append.1 hmem with hmem | hmem
  · exact h hmem
  · exact hr (List.mem_singleton.1 (List.mem_of_mem_drop hmem)).symm

end Legible

/-! ### The invariant -/

namespace Engine

/-- The redo entries logged from record `floor` on. -/
def redosFrom (e : Engine) (floor : ℕ) : List Redo :=
  (e.writer.wal.records.drop floor).flatMap WalRecord.redos

/-- The segments `live` hold the table as it was with the histories `Hf`, and the log from `floor`
on takes it from there to `H`. -/
structure Covers (e : Engine) (floor : ℕ) (live : List ℕ) (Hf H : History) : Prop where
  wellFormed : Hf.WellFormed
  fits : Hf.ClosesFit
  read : ∃ s, readSegments e.segments live = some s ∧
    (∀ v, v ∈ s.versions ↔ Hf.Asserts v) ∧ ∀ c, c ∈ s.retractions ↔ Hf.Retracts c
  rest : Writes Hf (e.redosFrom floor) H
  floor_le : floor ≤ e.writer.wal.records.length
  sorted : live.Pairwise (· < ·)
  below : ∀ i ∈ live, i < e.nextSegmentIndex

/-- The engine stores the histories `H`, and so does its disk.  The manifest says what the engine
has in memory as long as the live set is one that the reader accepts; past that it says what held
at the last record the reader accepts. -/
structure Sound (e : Engine) (H : History) : Prop where
  stores : Stores e.tiers e.sealedVersions H
  stamped : ∀ k, ∀ ev ∈ H k, ∃ prev ∈ e.writer.writer.lastCommit, ev.instant ≤ prev
  idle : e.writer.group = none
  wal : e.writer.wal.Healthy
  whole : .torn ∉ e.writer.wal.records
  manifestClean : e.manifestFaults.Clean
  covers : ∃ Hf, e.Covers e.replayFloor e.liveSegments Hf H ∧
    ∀ v, v ∈ e.sealedVersions ↔ Hf.Asserts v
  recoverable : ∃ Hf,
    e.Covers e.manifest.point.replayFloor e.manifest.point.liveSegments Hf H
  tombstones : ∀ c, c ∈ e.tiers.delta.retractions ↔ Redo.retract c ∈ e.redosFrom e.replayFloor
  few : e.liveSegments.length ≤ maxLiveSegments →
    (∀ r ∈ e.manifest, r.any RecoveryPoint.accepted = true) ∧
      e.manifest.point.replayFloor = e.replayFloor ∧
        e.manifest.point.liveSegments = e.liveSegments
  many : maxLiveSegments < e.liveSegments.length →
    ∃ r ∈ e.manifest, r.any RecoveryPoint.accepted = false

theorem covers_empty (validTime : Bool) (faults : Faults) :
    Covers { writer := { validTime }, segmentFaults := faults } 0 [] History.empty
      History.empty where
  wellFormed := History.wellFormed_empty
  fits := by rintro c ⟨k, p, hp, -⟩; cases hp
  read := by
    refine ⟨{ versions := [], retractions := [] }, rfl, fun v => ?_, fun c => ?_⟩
    · simp [History.Asserts, History.periodsOf, History.empty]
    · simp [History.Retracts, History.periodsOf, History.empty]
  rest := .nil _
  floor_le := le_rfl
  sorted := List.Pairwise.nil
  below := fun i hi => nomatch hi

/-- A new engine. -/
theorem sound_empty (validTime : Bool) (faults : Faults) :
    Sound { writer := { validTime }, segmentFaults := faults } History.empty where
  stores := Stores.empty {} {}
  stamped := fun k ev hev => nomatch hev
  idle := rfl
  wal := ⟨rfl, fun o ho => (nomatch ho), fun o ho => (nomatch ho)⟩
  whole := List.not_mem_nil
  manifestClean := fun o ho => nomatch ho
  covers := ⟨History.empty, covers_empty _ _, fun v => by
    simp [History.Asserts, History.periodsOf, History.empty]⟩
  recoverable := ⟨History.empty, covers_empty _ _⟩
  tombstones := fun c => by simp [redosFrom]
  few := fun _ => ⟨fun r hr => (nomatch hr), rfl, rfl⟩
  many := fun h => absurd h (Nat.not_lt_zero _)

theorem redosFrom_logged {e : Engine} {dw : DmlWriter} {t' : Tiers} {floor : ℕ} {r : WalRecord}
    (hrec : dw.wal.records = e.writer.wal.records ++ [r])
    (hfloor : floor ≤ e.writer.wal.records.length) :
    redosFrom { e with writer := dw, tiers := t' } floor = e.redosFrom floor ++ r.redos := by
  simp only [redosFrom, hrec]
  rw [List.drop_append_of_le_length hfloor]
  simp

theorem redosFrom_unlogged {e : Engine} {dw : DmlWriter} {t' : Tiers} {floor : ℕ}
    (hrec : dw.wal.records = e.writer.wal.records) :
    redosFrom { e with writer := dw, tiers := t' } floor = e.redosFrom floor := by
  simp only [redosFrom, hrec]

end Engine

/-! ### Recovery of a sound engine -/

theorem Manifest.load_append {m : Manifest} (h : ∀ r ∈ m, r.any RecoveryPoint.accepted = true)
    {p : RecoveryPoint} (hp : p.accepted = true) : Manifest.load (m ++ [some p]) = some p := by
  have hall : ∀ r ∈ m ++ [some p], r.any RecoveryPoint.accepted = true := by
    intro r hr
    rcases List.mem_append.1 hr with hr | hr
    · exact h r hr
    · rw [List.mem_singleton.1 hr]; exact hp
  rw [Manifest.load, List.takeWhile_eq_self_iff.2 hall, List.getLast?_concat]
  rfl

/-- The frame is a record that counts. -/
def WalRecord.counts (committed : CommittedTxns) : WalRecord → Bool
  | .whole txnId _ => txnId.all committed.admits
  | .torn => false

/-- Replaying a log whose torn frames stand at its end, past the fence, is applying the redo sets of
the records that count. -/
theorem recoverReplay_eq (committed : CommittedTxns) {fence at_ : ℕ} (t : Tiers)
    {rs : List WalRecord}
    (h : ∀ n, rs[n]? = some .torn → fence ≤ at_ + n ∧ ∀ r ∈ rs.drop n, r = .torn) :
    recoverReplay committed fence at_ t rs =
      match apply t ((rs.filter (WalRecord.counts committed)).flatMap WalRecord.redos) with
      | (t, .error e) => (t, .error (.apply e))
      | (t, .ok ()) => (t, .ok ()) := by
  induction rs generalizing t at_ with
  | nil => rfl
  | cons r rs ih =>
    have hrest : ∀ n, rs[n]? = some .torn →
        fence ≤ at_ + 1 + n ∧ ∀ r ∈ rs.drop n, r = .torn := fun n hn => by
      have := h (n + 1) hn
      rwa [← Nat.add_assoc, Nat.add_right_comm, List.drop_succ_cons] at this
    cases r with
    -- replay ends here, and so do the records that count
    | torn =>
      obtain ⟨hfence, htorn⟩ := h 0 rfl
      have hnone : (WalRecord.torn :: rs).filter (WalRecord.counts committed) = [] :=
        List.filter_eq_nil_iff.2 fun r hr => by rw [htorn r hr]; exact Bool.false_ne_true
      rw [recoverReplay, if_pos (by simpa using hfence), hnone]
      rfl
    | whole txnId redos =>
      rw [recoverReplay]
      -- a record of a transaction that did not commit is skipped on both sides
      cases hr : txnId.all committed.admits with
      | false =>
        have hany : (txnId.any fun txn => !committed.admits txn) = true := by
          cases txnId <;> simp_all
        rw [if_pos hany, ih t hrest, List.filter_cons_of_neg (by simp [WalRecord.counts, hr])]
      | true =>
        have hany : ¬ (txnId.any fun txn => !committed.admits txn) = true := by
          cases txnId <;> simp_all
        rw [if_neg hany, List.filter_cons_of_pos (by simp [WalRecord.counts, hr]),
          List.flatMap_cons, WalRecord.redos_whole, apply, applyRedos_append]
        rcases applyRedos true t redos with ⟨t', e | _⟩
        · rfl
        · exact ih t' hrest

/-- Replaying a legible log from the floor of a recovery point is applying all its redo sets. -/
theorem recoverReplay_of_legible {log : List WalRecord} {p : RecoveryPoint} (h : Legible log p)
    (t : Tiers) :
    recoverReplay .all p.durableFence p.replayFloor t (log.drop p.replayFloor) =
      match apply t ((log.drop p.replayFloor).flatMap WalRecord.redos) with
      | (t, .error e) => (t, .error (.apply e))
      | (t, .ok ()) => (t, .ok ()) := by
  have hall : ∀ rs : List WalRecord,
      (rs.filter (WalRecord.counts .all)).flatMap WalRecord.redos =
        rs.flatMap WalRecord.redos := by
    intro rs
    induction rs with
    | nil => rfl
    | cons r rs ih =>
      cases r with
      | torn => exact ih
      | whole txnId redos =>
        have hcount : (WalRecord.whole txnId redos).counts .all = true := by cases txnId <;> rfl
        rw [List.filter_cons_of_pos hcount, List.flatMap_cons, List.flatMap_cons, ih]
  -- a torn frame of the part behind the floor is one of the log
  rw [recoverReplay_eq .all t fun n hn => ?_, hall]
  rw [List.getElem?_drop] at hn
  rw [List.drop_drop]
  exact h _ (Nat.le_add_right _ _) hn

theorem Engine.readSegments_congr {files files' : SegmentFiles} {is : List ℕ}
    (h : ∀ i ∈ is, files[i]? = files'[i]?) : readSegments files is = readSegments files' is := by
  induction is with
  | nil => rfl
  | cons i is ih =>
    rw [readSegments, readSegments, readSegment, readSegment, h i List.mem_cons_self,
      ih fun j hj => h j (List.mem_cons_of_mem _ hj)]

theorem KeyedMap.values_ofList {l : List ℕ} (hl : l.Pairwise (· < ·)) :
    (KeyedMap.ofList l : KeyedMap fun i : ℕ => i).values = l :=
  KeyedMap.values_eq hl fun _ => KeyedMap.mem_ofList fun _ _ _ _ h => h

theorem Manifest.point_fields (m : Manifest) :
    (m.load.map RecoveryPoint.replayFloor).getD 0 = m.point.replayFloor ∧
      (m.load.map RecoveryPoint.durableFence).getD 0 = m.point.durableFence ∧
      (m.load.map RecoveryPoint.liveSegments).getD [] = m.point.liveSegments := by
  rw [Manifest.point]
  cases m.load <;> exact ⟨rfl, rfl, rfl⟩

/-- The segments that the manifest of a disk names hold the table as it was with the histories `Hf`,
and the log from its floor on takes it from there to `H`, with nothing lost behind a torn frame. -/
structure Disk.Holds (d : Disk) (Hf H : History) : Prop where
  wellFormed : Hf.WellFormed
  fits : Hf.ClosesFit
  read : ∃ s, Engine.readSegments d.segments d.manifest.point.liveSegments = some s ∧
    (∀ v, v ∈ s.versions ↔ Hf.Asserts v) ∧ ∀ c, c ∈ s.retractions ↔ Hf.Retracts c
  rest : Writes Hf ((d.log.drop d.manifest.point.replayFloor).flatMap WalRecord.redos) H
  legible : Legible d.log d.manifest.point
  sorted : d.manifest.point.liveSegments.Pairwise (· < ·)

/-- The engine that recovery makes of a disk that holds `H`. -/
structure Disk.Recovered (d : Disk) (validTime : Bool) (Hf H : History) (e : Engine) : Prop where
  stores : Stores e.tiers e.sealedVersions H
  sealed : ∀ v, v ∈ e.sealedVersions ↔ Hf.Asserts v
  tombstones : ∀ c, c ∈ e.tiers.delta.retractions ↔
    Redo.retract c ∈ (d.log.drop d.manifest.point.replayFloor).flatMap WalRecord.redos
  writer : e.writer = { wal := { records := d.log, fileBytes := d.logFileBytes
                                 durableEnd := d.log.length }, validTime }
  live : e.liveSegments = d.manifest.point.liveSegments
  floor : e.replayFloor = d.manifest.point.replayFloor
  next : e.nextSegmentIndex = (d.manifest.point.liveSegments.getLast?.map (· + 1)).getD 0
  manifest : e.manifest = d.manifest
  segments : e.segments = d.segments.filter fun i _ => i ∈ d.manifest.point.liveSegments

/-- **Recovery of a disk** that holds a table succeeds, and the recovered engine stores the same
histories.  Segment files that the manifest does not name are gone. -/
theorem Disk.Holds.recover {d : Disk} {Hf H : History} (h : d.Holds Hf H) (validTime : Bool) :
    ∃ e, Engine.recover d validTime = .ok e ∧ d.Recovered validTime Hf H e := by
  obtain ⟨s, hs, hsv, hsr⟩ := h.read
  -- the index of the sealed versions, and the log replayed on top of it
  obtain ⟨ix, hix, hst⟩ := rebuild_spec h.wellFormed hsv h.fits hsr
  obtain ⟨t', ht', hst', hstaged⟩ := hst.applyRedos h.rest true
  -- what recovery reads off the manifest
  obtain ⟨hfloor, hfence, hlive⟩ := d.manifest.point_fields
  have hread : Engine.readSegments (d.segments.filter fun i _ => i ∈ d.manifest.point.liveSegments)
      d.manifest.point.liveSegments = some s := by
    rw [← hs]
    refine Engine.readSegments_congr fun i hi => ?_
    rw [Std.ExtTreeMap.getElem?_filter']
    cases d.segments[i]? <;> simp [hi]
  have hreplay : recoverReplay .all d.manifest.point.durableFence d.manifest.point.replayFloor
      { delta := {}, index := ix } (d.log.drop d.manifest.point.replayFloor) = (t', .ok ()) := by
    rw [recoverReplay_of_legible h.legible, apply, ht']
  simp only [Engine.recover, Engine.recoverWithCommits, hfloor, hfence, hlive,
    KeyedMap.values_ofList h.sorted, hread, hix, hreplay]
  refine ⟨_, rfl, hst', hsv, fun c => ?_, rfl, rfl, rfl, rfl, rfl, rfl⟩
  rw [hstaged.retractions]
  simp

/-- **Recovery of a sound engine** succeeds, and the recovered engine stores the same histories. -/
theorem Engine.Sound.recover {e : Engine} {H : History} (h : e.Sound H) (validTime : Bool) :
    ∃ e', Engine.recover e.disk validTime = .ok e' ∧ Stores e'.tiers e'.sealedVersions H := by
  obtain ⟨Hf, hcov⟩ := h.recoverable
  have hd : e.disk.Holds Hf H := ⟨hcov.wellFormed, hcov.fits, hcov.read, hcov.rest,
    .of_whole fun hmem => h.whole (List.mem_of_mem_drop hmem), hcov.sorted⟩
  obtain ⟨e', he', hrec⟩ := hd.recover validTime
  exact ⟨e', he', hrec.stores⟩

/-! ### Writes keep the invariant -/

namespace Engine.Covers

variable {e : Engine} {floor : ℕ} {live : List ℕ} {Hf H H' : History} {dw : DmlWriter} {t' : Tiers}

/-- A logged record extends what the log takes the table to. -/
theorem logged (h : e.Covers floor live Hf H) {rs : List Redo} {txnId : Option TxnId}
    (hrec : dw.wal.records = e.writer.wal.records ++ [.whole txnId rs]) (hw : Writes H rs H') :
    Covers { e with writer := dw, tiers := t' } floor live Hf H' := by
  refine ⟨h.wellFormed, h.fits, h.read, ?_, ?_, h.sorted, h.below⟩
  · rw [redosFrom_logged hrec h.floor_le]
    exact h.rest.trans hw
  · change floor ≤ dw.wal.records.length
    rw [hrec, List.length_append]
    exact h.floor_le.trans (Nat.le_add_right _ _)

theorem unlogged (h : e.Covers floor live Hf H) (hrec : dw.wal.records = e.writer.wal.records) :
    Covers { e with writer := dw, tiers := t' } floor live Hf H := by
  refine ⟨h.wellFormed, h.fits, h.read, ?_, ?_, h.sorted, h.below⟩
  · rw [redosFrom_unlogged hrec]; exact h.rest
  · change floor ≤ dw.wal.records.length
    rw [hrec]; exact h.floor_le

end Engine.Covers

namespace Engine.Sound

variable {e : Engine} {H H' : History} {dw : DmlWriter} {t' : Tiers}

/-- A record of accepted writes was logged and applied. -/
theorem logged (h : e.Sound H) {rs : List Redo} {txnId : Option TxnId} (hidle : dw.group = none)
    (hrec : dw.wal.records = e.writer.wal.records ++ [.whole txnId rs]) (hwal : dw.wal.Healthy)
    (hw : Writes H rs H') (hs : Stores t' e.sealedVersions H') (hst : Staged e.tiers t' rs)
    (hstamp : ∀ k, ∀ ev ∈ H' k, ∃ prev ∈ dw.writer.lastCommit, ev.instant ≤ prev) :
    Sound { e with writer := dw, tiers := t' } H' := by
  obtain ⟨Hf, hcov, hsv⟩ := h.covers
  obtain ⟨Hf', hcov'⟩ := h.recoverable
  have hwhole : .torn ∉ dw.wal.records := by
    rw [hrec]
    simpa using h.whole
  refine ⟨hs, hstamp, hidle, hwal, hwhole, h.manifestClean, ⟨Hf, hcov.logged hrec hw, hsv⟩,
    ⟨Hf', hcov'.logged hrec hw⟩, fun c => ?_, h.few, h.many⟩
  -- the tombstones are the old ones and those of the record
  rw [redosFrom_logged hrec hcov.floor_le, List.mem_append, ← h.tombstones]
  exact hst.retractions c

/-- Nothing was logged, and the tiers hold what they held. -/
theorem unlogged (h : e.Sound H) (hidle : dw.group = none)
    (hrec : dw.wal.records = e.writer.wal.records) (hwal : dw.wal.Healthy)
    (hsame : t'.Same e.tiers)
    (hstamp : ∀ k, ∀ ev ∈ H k, ∃ prev ∈ dw.writer.lastCommit, ev.instant ≤ prev) :
    Sound { e with writer := dw, tiers := t' } H := by
  obtain ⟨Hf, hcov, hsv⟩ := h.covers
  obtain ⟨Hf', hcov'⟩ := h.recoverable
  refine ⟨hsame.stores h.stores, hstamp, hidle, hwal, hrec ▸ h.whole, h.manifestClean,
    ⟨Hf, hcov.unlogged hrec, hsv⟩, ⟨Hf', hcov'.unlogged hrec⟩, fun c => ?_, h.few, h.many⟩
  rw [redosFrom_unlogged hrec, ← h.tombstones, ← hsame.retractions]

/-- The stamp of a write bounds the events it may add to. -/
theorem stamped_of_le (h : e.Sound H) {now : SystemTimeMicros}
    (hprev : ∀ prev ∈ e.writer.writer.lastCommit, prev ≤ now) :
    ∀ k, ∀ ev ∈ H k, ev.instant ≤ now := by
  intro k ev hev
  obtain ⟨prev, hp, hle⟩ := h.stamped k ev hev
  exact hle.trans (hprev prev hp)

/-- **The write path keeps the engine sound.** -/
theorem wrote (h : e.Sound H) {e' : Engine} (hw : e.Wrote H e' H') : e'.Sound H' := by
  cases hw with
  | refused hidle hwal hsame hstamp =>
    refine h.unlogged hidle hwal.same (hwal.healthy h.wal) hsame fun k ev hev => ?_
    -- a refused write may have advanced the commit stamp
    rcases hstamp with hlast | ⟨t, ht, hle⟩
    · rw [hlast]
      exact h.stamped k ev hev
    · exact ⟨t, ht, hle k ev hev⟩
  | logged hidle hwal hwrites hstores hstaged hstamp =>
    obtain ⟨t, ht, hle⟩ := hstamp
    exact h.logged hidle hwal.records (hwal.healthy h.wal) hwrites hstores hstaged
      fun k ev hev => ⟨t, ht, hle k ev hev⟩

/-- **A single write keeps the engine sound**: it changes nothing or appends one event to its
key. -/
theorem write (h : e.Sound H) {ws : List DmlWrite} {w : DmlWrite} (hfrom : FromWrites H ws)
    (hseq : SeqContract (ws ++ [w])) :
    ∃ H', (e.write w).1.Sound H' ∧ FromWrites H' (ws ++ [w]) := by
  obtain ⟨H', hw, hnew⟩ := wrote_write h.stores h.idle (fun hprev => h.stamped_of_le hprev)
    (hfrom.takes hseq)
  exact ⟨H', h.wrote hw, hfrom.from_ hnew⟩

/-- **A transaction keeps the engine sound**: its writes are stored together or not at all. -/
theorem groupCommit (h : e.Sound H) {past ws : List DmlWrite} (txnId : Option TxnId)
    (hfrom : FromWrites H past) (hseq : SeqContract (past ++ ws)) :
    ∃ H', (e.groupCommit ws txnId).1.Sound H' ∧ FromWrites H' (past ++ ws) := by
  obtain ⟨H', hw, hnew⟩ := wrote_groupCommit h.stores txnId
    (fun w _ hprev => h.stamped_of_le hprev) (hfrom.takes hseq)
  exact ⟨H', h.wrote hw, hfrom.from_ hnew⟩

end Engine.Sound

end SteleDb
