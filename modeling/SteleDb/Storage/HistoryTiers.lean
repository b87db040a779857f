import SteleDb.Storage.Contents
import SteleDb.Storage.CrashRuns
import SteleDb.Storage.VersionHistory

/-!
# The timeline of a key, over flushes, compactions and recoveries

A flush moves versions from the delta tier to a segment, a compaction from several segments to one,
a recovery rebuilds the engine from its disk.  None of them changes the history that the table
stores.  The listing of a key shows more: it strips the interval from what is staged and leaves it
in front of what is sealed.

* `Engine.Kept` : what the runs of an engine of a table with a valid-time axis keep, recoveries
  included;
* `versionHistory_of_tierCalls` : the listing of a key stays the same exactly if no flush seals a
  version of the key, and its payloads are bare exactly if no segment has one.
-/

namespace SteleDb

open Timeline

/-- A call that moves versions between the tiers.  The segment file of a flush or of a compaction
may fail to be written, also because the writer refuses it by its size. -/
inductive TierCall where
  /-- Seal what is staged. -/
  | flush (file : IoOutcome)
  /-- Merge the live segments. -/
  | compact (file : IoOutcome)
  /-- Boot again from the disk. -/
  | recover
  deriving DecidableEq

namespace Engine

/-- The next segment file comes out as `file`. -/
def sealing (e : Engine) (file : IoOutcome) : Engine := { e with segmentFaults := [file] }

/-- Do a call; an engine that does not boot again is left as it is. -/
def tierCall (e : Engine) : TierCall → Engine
  | .flush file => (e.sealing file).flush.1
  | .compact file => (e.sealing file).compact.1
  | .recover => (Engine.recover e.disk e.writer.validTime).toOption.getD e

/-- Do calls in order. -/
def tierCalls (e : Engine) (calls : List TierCall) : Engine := calls.foldl tierCall e

/-- The readers accept what the call reads and writes: a compaction does no harm, a recovery finds a
live set that is read back. -/
def HasRoom (e : Engine) : TierCall → Prop
  | .flush _ => True
  | .compact _ => e.Compactable
  | .recover => e.liveSegments.length ≤ maxLiveSegments

/-- The readers accept what every call reads and writes. -/
def AllRoom (e : Engine) : List TierCall → Prop
  | [] => True
  | c :: calls => e.HasRoom c ∧ (e.tierCall c).AllRoom calls

/-- No flush seals a version of the key. -/
def Spares (key : BusinessKey) (e : Engine) : List TierCall → Prop
  | [] => True
  | c :: calls => (c = .flush .done → ∀ v, e.tiers.delta.Holds v → v.businessKey = key →
      v ∈ e.sealedVersions) ∧ (e.tierCall c).Spares key calls

/-- The engines of a table with a valid-time axis, whose log and manifest work. -/
inductive Reach : Engine → Prop
  /-- A new table. -/
  | create : Reach { writer := { validTime := true } }
  /-- A write. -/
  | write {e : Engine} (run : Reach e) {w : DmlWrite}
      (promised : Host.Promised { engine := e } [w]) :
    Reach (e.write w).1
  /-- A transaction. -/
  | group {e : Engine} (run : Reach e) {ws : List DmlWrite}
    (promised : Host.Promised { engine := e } ws) (txnId : Option TxnId) :
    Reach (e.groupCommit ws txnId).1
  /-- A note of the durable end of the log. -/
  | checkpoint {e : Engine} (run : Reach e) : Reach e.checkpoint.1
  /-- A flush, a compaction or a recovery. -/
  | move {e : Engine} (run : Reach e) {c : TierCall} (room : e.HasRoom c) : Reach (e.tierCall c)

/-! ### Calls on a log and a manifest that work -/

section Works

variable {e : Engine} {wal : Wal} (ht : e.writer.wal.tick = (wal, .ok ()))
  (hman : e.manifestFaults.next = .done)

include ht hman

theorem checkpoint_eq : e.checkpoint.1 = { e with
    writer := { e.writer with wal }
    manifest := e.manifest ++ [some ⟨e.replayFloor, wal.durableEnd, e.liveSegments⟩]
    manifestFaults := e.manifestFaults.tail
    fence := some wal.durableEnd } := by
  simp only [checkpoint, tick, ht, store, hman]

theorem flush_eq : e.flush.1 =
    if e.tiers.delta.stagedVersions.isEmpty ∧ e.tiers.delta.stagedRetractions.isEmpty then
      { e with
        writer := { e.writer with wal }
        manifest := e.manifest ++ [some ⟨e.replayFloor, wal.durableEnd, e.liveSegments⟩]
        manifestFaults := e.manifestFaults.tail
        fence := some wal.durableEnd }
    else if e.segmentFaults.next = .done then
      { e with
        writer := { e.writer with wal }
        sealedVersions := e.sealedVersions ++ e.tiers.delta.stagedVersions
        liveSegments := e.liveSegments ++ [e.nextSegmentIndex]
        nextSegmentIndex := e.nextSegmentIndex + 1
        replayFloor := wal.durableEnd
        fence := some wal.durableEnd
        tiers := { e.tiers with delta := e.tiers.delta.discardFlushed }
        manifest := e.manifest ++
          [some ⟨wal.durableEnd, wal.durableEnd, e.liveSegments ++ [e.nextSegmentIndex]⟩]
        manifestFaults := e.manifestFaults.tail
        segmentFaults := e.segmentFaults.tail
        segments := e.segments.insert e.nextSegmentIndex
          { versions := e.tiers.delta.stagedVersions
            retractions := e.tiers.delta.stagedRetractions } }
    else
      { e with
        writer := { e.writer with wal }
        segmentFaults := e.segmentFaults.tail
        segments := e.segments.erase e.nextSegmentIndex } := by
  -- nothing staged, a file that is written, or one that is not
  by_cases hempty : e.tiers.delta.stagedVersions.isEmpty ∧ e.tiers.delta.stagedRetractions.isEmpty
  · rw [if_pos hempty]
    simp only [flush, tick, ht, if_pos hempty, store, hman]
  · rw [if_neg hempty]
    by_cases hfile : e.segmentFaults.next = .done
    · simp only [flush, tick, ht, if_neg hempty, if_pos, sealSegment, hfile, store, hman]
    · rw [if_neg hfile]
      cases hnext : e.segmentFaults.next with
      | done => exact absurd hnext hfile
      | failed => simp only [flush, tick, ht, if_neg hempty, sealSegment, hnext]
      | torn => simp only [flush, tick, ht, if_neg hempty, sealSegment, hnext]

theorem compact_eq {s : Segment} (hs : readSegments e.segments e.liveSegments = some s) :
    e.compact.1 = if e.liveSegments.length < 2 then e
    else if e.segmentFaults.next = .done then
      { e with
        writer := { e.writer with wal }
        sealedVersions := (e.mergedSegment s).versions
        liveSegments := [e.nextSegmentIndex]
        nextSegmentIndex := e.nextSegmentIndex + 1
        fence := some wal.durableEnd
        manifest := e.manifest ++ [some ⟨e.replayFloor, wal.durableEnd, [e.nextSegmentIndex]⟩]
        manifestFaults := e.manifestFaults.tail
        segmentFaults := e.segmentFaults.tail
        segments := e.liveSegments.foldl (fun files i => files.erase i)
          (e.segments.insert e.nextSegmentIndex (e.mergedSegment s)) }
    else
      { e with
        writer := { e.writer with wal }
        segmentFaults := e.segmentFaults.tail
        segments := e.segments.erase e.nextSegmentIndex } := by
  by_cases hfew : e.liveSegments.length < 2
  · rw [if_pos hfew, compact, if_pos hfew]
  · rw [if_neg hfew]
    by_cases hfile : e.segmentFaults.next = .done
    · rw [if_pos hfile]
      simp only [compact, tick, ht, if_neg hfew, hs, sealSegment, hfile, store, hman]
      rfl
    · rw [if_neg hfile]
      cases hnext : e.segmentFaults.next with
      | done => exact absurd hnext hfile
      | failed => simp only [compact, tick, ht, if_neg hfew, hs, sealSegment, hnext]
      | torn => simp only [compact, tick, ht, if_neg hfew, hs, sealSegment, hnext]

end Works

/-! ### What runs keep -/

/-- The engine with another commit stamp; what is on disk says nothing about it. -/
def stampedBy (e : Engine) (w : SysTimeWriter) : Engine :=
  { e with writer := { e.writer with writer := w } }

/-- The engine stores the histories `H`, its disk says so too, and every payload it has carries an
interval. -/
structure Kept (e : Engine) (H : History) : Prop where
  sound : ∃ w, (e.stampedBy w).Sound H
  stamped : ∀ prev ∈ e.writer.writer.lastCommit, ∀ k, ∀ ev ∈ H k, ev.instant ≤ prev
  logged : Writes History.empty (e.redosFrom 0) H
  policy : e.writer.validTime = true
  framed : ∀ v, e.Contains v → v.Framed

namespace Kept

variable {e e' : Engine} {H H' : History}

theorem stores (h : e.Kept H) : Stores e.tiers e.sealedVersions H := by
  obtain ⟨w, hs⟩ := h.sound
  exact hs.stores

theorem validTable (h : e.Kept H) : e.ValidTable H := by
  obtain ⟨w, hs⟩ := h.sound
  obtain ⟨Hf, hcov, hsealed⟩ := hs.covers
  obtain ⟨s, hread, hsv, -⟩ := hcov.read
  refine ⟨h.policy, hs.stores, ⟨s, hread, fun v => (hsv v).trans (hsealed v).symm⟩, fun v hv => ?_⟩
  exact h.framed v (((hs.stores.represents.holds v).2 hv).imp_right .inl)

/-- The engine of a new table. -/
theorem create : Kept { writer := { validTime := true } } History.empty where
  sound := ⟨{}, sound_empty true []⟩
  stamped := fun _ _ k ev hev => nomatch hev
  logged := .nil _
  policy := rfl
  framed := by
    rintro v (hv | hv | ⟨i, s, hs, -⟩)
    · simp [Delta.Holds, MemTier.new, Delta.spillRows] at hv
    · cases hv
    · simp at hs

/-! Writes. -/

/-- What the callers promise bounds the events, -/
theorem bounds (h : e.Kept H) {ws : List DmlWrite} (hp : Host.Promised { engine := e } ws) :
    ∀ w ∈ ws, e.writer.writer.Bounds H w.now := by
  intro w hw hprev k ev hev
  cases hlast : e.writer.writer.lastCommit with
  | some t => exact (h.stamped t hlast k ev hev).trans (hprev t hlast)
  | none =>
    obtain ⟨redo, hredo, hinst, -⟩ :=
      (h.logged.exists_records hev).resolve_left (fun hno => nomatch hno)
    obtain ⟨r, hr, hredo⟩ := List.mem_flatMap.1 hredo
    rw [← hinst]
    exact hp.clock hlast w hw r hr redo hredo

/-- and the sequence numbers. -/
theorem takes (h : e.Kept H) {ws : List DmlWrite} (hp : Host.Promised { engine := e } ws) :
    H.Takes ws := by
  refine ⟨hp.contract, fun w hw ev hev hnow x hx b hb => ?_⟩
  obtain ⟨redo, hredo, -, hval⟩ :=
    (h.logged.exists_records hev).resolve_left (fun hno => nomatch hno)
  obtain ⟨r, hr, hredo⟩ := List.mem_flatMap.1 hredo
  rw [hval x hx] at hredo
  exact hp.seq_lt w hw r hr _ hredo rfl hnow b hb

theorem wrote (h : e.Kept H) (hw : e.Wrote H e' H') (hg : Gains Version.Framed e e') :
    e'.Kept H' := by
  have hframed : ∀ v, e'.Contains v → v.Framed := fun v hv =>
    (hg.contains v hv).elim (h.framed v) id
  obtain ⟨w₀, hs⟩ := h.sound
  cases hw with
  | @refused dw t' idle wal same stamp =>
    have hlogged : redosFrom { e with writer := dw, tiers := t' } 0 = e.redosFrom 0 :=
      redosFrom_unlogged wal.same
    have hsound : Sound { e.stampedBy w₀ with writer := { dw with writer := w₀ }, tiers := t' } H :=
      hs.unlogged idle wal.same (wal.healthy hs.wal) same hs.stamped
    refine ⟨⟨w₀, hsound⟩, fun prev hprev k ev hev => ?_, by rw [hlogged]; exact h.logged,
      hg.validTime.trans h.policy, hframed⟩
    rcases stamp with hlast | ⟨t, hlast, hle⟩
    · exact h.stamped prev (hlast ▸ hprev) k ev hev
    · have heq : t = prev := Option.some.inj (hlast.symm.trans hprev)
      exact heq ▸ hle k ev hev
  | @logged dw t' H' txnId rs idle wal writes stores staged stamp =>
    obtain ⟨t, hlast, hle⟩ := stamp
    have hlogged : redosFrom { e with writer := dw, tiers := t' } 0 = e.redosFrom 0 ++ rs :=
      redosFrom_logged wal.records (Nat.zero_le _)
    have hsound : Sound { e.stampedBy w₀ with writer := dw, tiers := t' } H' :=
      hs.logged idle wal.records (wal.healthy hs.wal) writes stores staged
        fun k ev hev => ⟨t, hlast, hle k ev hev⟩
    refine ⟨⟨dw.writer, hsound⟩, fun prev hprev k ev hev => ?_,
      by rw [hlogged]; exact h.logged.trans writes, hg.validTime.trans h.policy, hframed⟩
    have heq : t = prev := Option.some.inj (hlast.symm.trans hprev)
    exact heq ▸ hle k ev hev

/-- A version that a write of the table makes carries an interval. -/
theorem framed_of_writesVersion {w : DmlWrite} {v : Version} (h : WritesVersion w true v) :
    v.Framed := by
  obtain ⟨-, -, hop⟩ := h
  -- an insert or an update frames its payload, a delete writes no version
  rcases hw : w.op with ⟨valid, payload, seq⟩ | ⟨valid, payload, seq⟩ | _
  · rw [hw] at hop
    obtain ⟨hno, -⟩ | ⟨i, -, -, hpay⟩ := framePayload_eq_ok.1 hop
    · cases hno
    · exact ⟨i, _, hpay⟩
  · rw [hw] at hop
    obtain ⟨hno, -⟩ | ⟨i, -, -, hpay⟩ := framePayload_eq_ok.1 hop
    · cases hno
    · exact ⟨i, _, hpay⟩
  · rw [hw] at hop
    exact hop.elim

theorem gains_framed {e : Engine} (hv : e.writer.validTime = true) (w : DmlWrite) :
    Gains Version.Framed e (e.write w).1 := by
  refine (gains_write e w).weaken fun v hwv => ?_
  rw [hv] at hwv
  exact framed_of_writesVersion hwv

theorem gains_writeAll {e : Engine} (hv : e.writer.validTime = true) (ws : List DmlWrite) :
    Gains Version.Framed e (e.writeAll ws).1 := by
  induction ws generalizing e with
  | nil => exact .refl e
  | cons w ws ih =>
    have hw := gains_framed hv w
    rw [writeAll]
    rcases hr : e.write w with ⟨e₁, err | commit⟩
    · rw [hr] at hw
      exact hw
    · rw [hr] at hw
      exact hw.trans (ih (hw.validTime.trans hv))

theorem gains_groupCommit {e : Engine} (hv : e.writer.validTime = true) (ws : List DmlWrite)
    (txnId : Option TxnId) : Gains Version.Framed e (e.groupCommit ws txnId).1 := by
  have hall := (gains_beginGroup e).trans (gains_writeAll (e := e.beginGroup) hv ws)
  rw [groupCommit]
  rcases hr : e.beginGroup.writeAll ws with ⟨e₁, err | _⟩
  · rw [hr] at hall
    exact hall.trans (gains_abortGroup e₁)
  · rw [hr] at hall
    exact hall.trans (gains_finishGroup e₁ txnId)

theorem write (h : e.Kept H) {w : DmlWrite} (hp : Host.Promised { engine := e } [w]) :
    ∃ H', (e.write w).1.Kept H' := by
  obtain ⟨w₀, hs⟩ := h.sound
  obtain ⟨H', hw, -⟩ := wrote_write h.stores hs.idle (h.bounds hp w (by simp)) (h.takes hp)
  exact ⟨H', h.wrote hw (gains_framed h.policy w)⟩

theorem group (h : e.Kept H) {ws : List DmlWrite} (hp : Host.Promised { engine := e } ws)
    (txnId : Option TxnId) : ∃ H', (e.groupCommit ws txnId).1.Kept H' := by
  obtain ⟨H', hw, -⟩ := wrote_groupCommit h.stores txnId (h.bounds hp) (h.takes hp)
  exact ⟨H', h.wrote hw (gains_groupCommit h.policy ws txnId)⟩

/-! Calls that leave the histories alone. -/

/-- The log is fsynced. -/
theorem tick (h : e.Kept H) : ∃ wal : Wal, e.writer.wal.tick = (wal, .ok ()) ∧
    wal.records = e.writer.wal.records ∧ e.manifestFaults.next = .done := by
  obtain ⟨w₀, hs⟩ := h.sound
  obtain ⟨wal, ht, hrec, -⟩ := hs.wal.tick
  exact ⟨wal, ht, hrec, hs.manifestClean.next⟩

/-- A call that writes no record. -/
theorem moved (h : e.Kept H) (sound : ∃ w, (e'.stampedBy w).Sound H) {wal : Wal}
    (hrec : wal.records = e.writer.wal.records) (hwriter : e'.writer = { e.writer with wal })
    (hg : Gains Version.Framed e e') : e'.Kept H where
  sound := sound
  stamped := by rw [hwriter]; exact h.stamped
  logged := by rw [redosFrom, hwriter, hrec]; exact h.logged
  policy := hg.validTime.trans h.policy
  framed := fun v hv => (hg.contains v hv).elim (h.framed v) id

theorem checkpoint (h : e.Kept H) : e.checkpoint.1.Kept H := by
  obtain ⟨wal, ht, hrec, hman⟩ := h.tick
  obtain ⟨w₀, hs⟩ := h.sound
  have hsound := hs.checkpoint
  rw [checkpoint_eq (e := e.stampedBy w₀) ht hman] at hsound
  have hg := gains_checkpoint (P := Version.Framed) e
  rw [checkpoint_eq ht hman] at hg ⊢
  exact h.moved ⟨w₀, hsound⟩ hrec rfl hg

/-- A segment file that is to come out well or not is not there yet. -/
theorem sealing (h : e.Kept H) (file : IoOutcome) : (e.sealing file).Kept H where
  sound := by
    obtain ⟨w, hs⟩ := h.sound
    obtain ⟨Hf, hcov, hsealed⟩ := hs.covers
    obtain ⟨Hf', hcov'⟩ := hs.recoverable
    have hcovers {floor live Hf} (hc : (e.stampedBy w).Covers floor live Hf H) :
        ((e.sealing file).stampedBy w).Covers floor live Hf H :=
      hc.files rfl (fun _ _ => rfl) le_rfl
    exact ⟨w, hs.stores, hs.stamped, hs.idle, hs.wal, hs.whole, hs.manifestClean,
      ⟨Hf, hcovers hcov, hsealed⟩, ⟨Hf', hcovers hcov'⟩, hs.tombstones, hs.few, hs.many⟩
  stamped := h.stamped
  logged := h.logged
  policy := h.policy
  framed := h.framed

/-- A flush seals what is staged, if its file is written. -/
theorem flush (h : e.Kept H) : e.flush.1.Kept H ∧ ∀ v, v ∈ e.flush.1.sealedVersions ↔
    v ∈ e.sealedVersions ∨ (e.segmentFaults.next = .done ∧ v ∈ e.tiers.delta.stagedVersions) := by
  obtain ⟨wal, ht, hrec, hman⟩ := h.tick
  obtain ⟨w₀, hs⟩ := h.sound
  have hsound := hs.flush
  have hsame : (e.stampedBy w₀).flush.1 = e.flush.1.stampedBy w₀ := by
    rw [flush_eq ht hman, flush_eq (e := e.stampedBy w₀) ht hman, apply_ite (stampedBy · w₀),
      apply_ite (stampedBy · w₀)]
    rfl
  rw [hsame] at hsound
  have hg := gains_flush (P := Version.Framed) e
  have hwriter : e.flush.1.writer = { e.writer with wal } := by
    rw [flush_eq ht hman]
    split_ifs <;> rfl
  refine ⟨h.moved ⟨w₀, hsound⟩ hrec hwriter hg, fun v => ?_⟩
  rw [flush_eq ht hman]
  split_ifs with hempty hfile
  · rw [List.isEmpty_iff.1 hempty.1]
    simp
  · simp [hfile]
  · simp [hfile]

/-- A compaction seals nothing new. -/
theorem compact (h : e.Kept H) (room : e.Compactable) :
    e.compact.1.Kept H ∧ ∀ v, v ∈ e.compact.1.sealedVersions ↔ v ∈ e.sealedVersions := by
  obtain ⟨wal, ht, hrec, hman⟩ := h.tick
  obtain ⟨s, hread, hsv⟩ := h.validTable.read
  obtain ⟨w₀, hs⟩ := h.sound
  have hsound := hs.compact room
  have hg := gains_compact (P := Version.Framed) e
  rw [compact_eq (e := e.stampedBy w₀) ht hman hread] at hsound
  rw [compact_eq ht hman hread] at hg ⊢
  by_cases hfew : e.liveSegments.length < 2
  · rw [if_pos hfew] at hg ⊢
    exact ⟨h, fun v => Iff.rfl⟩
  · have hfew' : ¬ (e.stampedBy w₀).liveSegments.length < 2 := hfew
    rw [if_neg hfew'] at hsound
    rw [if_neg hfew] at hg ⊢
    by_cases hfile : e.segmentFaults.next = .done
    · have hfile' : (e.stampedBy w₀).segmentFaults.next = .done := hfile
      rw [if_pos hfile'] at hsound
      rw [if_pos hfile] at hg ⊢
      exact ⟨h.moved ⟨w₀, hsound⟩ hrec rfl hg, fun v => List.mem_mergeSort.trans (hsv v)⟩
    · have hfile' : ¬ (e.stampedBy w₀).segmentFaults.next = .done := hfile
      rw [if_neg hfile'] at hsound
      rw [if_neg hfile] at hg ⊢
      exact ⟨h.moved ⟨w₀, hsound⟩ hrec rfl hg, fun v => Iff.rfl⟩

/-- A recovery starts on a manifest that works. -/
theorem works_of_recover {d : Disk} {validTime : Bool} (h : Engine.recover d validTime = .ok e) :
    e.manifestFaults = [] := by
  unfold Engine.recover recoverWithCommits at h
  dsimp only at h
  split at h
  · cases h
  · split at h
    · cases h
    · split at h
      · cases h
      · cases h
        rfl

/-- A recovery finds what the manifest of the engine named. -/
theorem recover (h : e.Kept H) (room : e.liveSegments.length ≤ maxLiveSegments) :
    ∃ e', Engine.recover e.disk e.writer.validTime = .ok e' ∧ e'.Kept H ∧
      ∀ v, v ∈ e'.sealedVersions ↔ v ∈ e.sealedVersions := by
  obtain ⟨w₀, hs⟩ := h.sound
  obtain ⟨Hf, hcov, hsealed⟩ := hs.covers
  obtain ⟨haccepted, hfloor₀, hlive₀⟩ := hs.few room
  have hfloor₀ : e.disk.manifest.point.replayFloor = e.replayFloor := hfloor₀
  have hlive₀ : e.disk.manifest.point.liveSegments = e.liveSegments := hlive₀
  obtain ⟨s, hread, hsv, hsr⟩ := hcov.read
  have hd : e.disk.Holds Hf H := by
    refine ⟨hcov.wellFormed, hcov.fits, ⟨s, ?_, hsv, hsr⟩, ?_, ?_, ?_⟩
    · rw [hlive₀]; exact hread
    · rw [hfloor₀]; exact hcov.rest
    · exact .of_whole fun hmem => hs.whole (List.mem_of_mem_drop hmem)
    · rw [hlive₀]; exact hcov.sorted
  obtain ⟨e', he', hrec⟩ := hd.recover e.writer.validTime
  have hman := works_of_recover he'
  have hlive : e'.liveSegments = e.liveSegments := by rw [hrec.live, hlive₀]
  have hfloor : e'.replayFloor = e.replayFloor := by rw [hrec.floor, hfloor₀]
  have hmanifest : e'.manifest = e.manifest := hrec.manifest
  have hlog : e'.writer.wal.records = e.writer.wal.records := by rw [hrec.writer]; rfl
  have hfiles : ∀ (i : ℕ) (s : Segment), e'.segments[i]? = some s → e.segments[i]? = some s := by
    intro i s hi
    rw [hrec.segments, Std.ExtTreeMap.getElem?_filter'] at hi
    exact (Option.filter_eq_some_iff.1 hi).1
  have hsame : ∀ v, v ∈ e'.sealedVersions ↔ v ∈ e.sealedVersions := fun v =>
    (hrec.sealed v).trans (hsealed v).symm
  refine ⟨e', he', ⟨⟨w₀, ?_⟩, ?_, ?_, ?_, ?_⟩, hsame⟩
  · -- what the new engine has in memory is what its disk says
    have hcov' : (e'.stampedBy w₀).Covers e'.replayFloor e'.liveSegments Hf H := by
      refine ⟨hcov.wellFormed, hcov.fits, ⟨s, ?_, hsv, hsr⟩, ?_, ?_, ?_, fun i hi => ?_⟩
      · rw [hlive, ← hread]
        refine readSegments_congr fun i hi => ?_
        change e'.segments[i]? = e.segments[i]?
        rw [hrec.segments, Std.ExtTreeMap.getElem?_filter', hlive₀]
        cases hi' : e.disk.segments[i]? with
        | none => exact hi'.symm
        | some s => exact (Option.filter_some_pos (by simpa using hi)).trans hi'.symm
      · change Writes Hf ((e'.writer.wal.records.drop e'.replayFloor).flatMap WalRecord.redos) H
        rw [hlog, hfloor]
        exact hcov.rest
      · change e'.replayFloor ≤ e'.writer.wal.records.length
        rw [hlog, hfloor]
        exact hcov.floor_le
      · rw [hlive]
        exact hcov.sorted
      · change i < e'.nextSegmentIndex
        rw [hlive] at hi
        rw [hrec.next, hlive₀]
        exact Host.lt_succ_last hcov.sorted hi
    have hpoint : (e'.stampedBy w₀).manifest.point.replayFloor = e'.replayFloor ∧
        (e'.stampedBy w₀).manifest.point.liveSegments = e'.liveSegments := by
      rw [hfloor, hlive, ← hfloor₀, ← hlive₀]
      change e'.manifest.point.replayFloor = _ ∧ e'.manifest.point.liveSegments = _
      rw [hmanifest]
      exact ⟨rfl, rfl⟩
    refine ⟨hrec.stores, hs.stamped, ?_, ?_, ?_, ?_, ⟨Hf, hcov', hrec.sealed⟩, ⟨Hf, ?_⟩,
      fun c => ?_, fun _ => ⟨?_, hpoint⟩, fun hlt => ?_⟩
    · change e'.writer.group = none
      rw [hrec.writer]
    · change e'.writer.wal.Healthy
      rw [hrec.writer]
      exact ⟨rfl, fun o ho => (nomatch ho), fun o ho => (nomatch ho)⟩
    · change .torn ∉ e'.writer.wal.records
      rw [hlog]
      exact hs.whole
    · change e'.manifestFaults.Clean
      rw [hman]
      exact fun o ho => (nomatch ho)
    · rw [hpoint.1, hpoint.2]
      exact hcov'
    · change c ∈ e'.tiers.delta.retractions ↔
        Redo.retract c ∈ (e'.writer.wal.records.drop e'.replayFloor).flatMap WalRecord.redos
      rw [hrec.tombstones, hfloor₀, hlog, hfloor]
      rfl
    · change ∀ r ∈ e'.manifest, _
      rw [hmanifest]
      exact haccepted
    · change maxLiveSegments < e'.liveSegments.length at hlt
      rw [hlive] at hlt
      exact absurd room (not_le.2 hlt)
  · rw [hrec.writer]
    exact fun prev hprev => nomatch hprev
  · rw [redosFrom, hlog]
    exact h.logged
  · rw [hrec.writer]
    exact h.policy
  · rintro v (hv | hv | ⟨i, s, hi, hv⟩)
    · exact h.validTable.framed v ((hrec.stores.represents.holds v).1 (.inl hv))
    · exact h.validTable.framed v ((hrec.stores.represents.holds v).1 (.inr hv))
    · exact h.framed v (.inr (.inr ⟨i, s, hfiles i s hi, hv⟩))

/-- **One call** leaves the histories alone; only a flush seals anything. -/
theorem tierCall (h : e.Kept H) {c : TierCall} (room : e.HasRoom c) :
    (e.tierCall c).Kept H ∧ ∀ v, v ∈ (e.tierCall c).sealedVersions ↔
      v ∈ e.sealedVersions ∨ (c = .flush .done ∧ e.tiers.delta.Holds v) := by
  cases c with
  | flush file =>
    obtain ⟨hkept, hsealed⟩ := (h.sealing file).flush
    refine ⟨hkept, fun v => ?_⟩
    have hstaged : v ∈ e.tiers.delta.stagedVersions ↔ e.tiers.delta.Holds v := by
      rw [Delta.stagedVersions, Delta.mem_mergeStaged h.stores.delta_consistent]
    rw [TierCall.flush.injEq, ← hstaged]
    exact hsealed v
  | compact file =>
    obtain ⟨hkept, hsealed⟩ := (h.sealing file).compact room
    exact ⟨hkept, fun v => (hsealed v).trans (by simp [Engine.sealing])⟩
  | recover =>
    obtain ⟨e', he', hkept, hsealed⟩ := h.recover room
    rw [Engine.tierCall, he']
    exact ⟨hkept, fun v => (hsealed v).trans (by simp)⟩

/-- **Calls in order** leave the histories alone, and what is sealed stays sealed. -/
theorem tierCalls (h : e.Kept H) {calls : List TierCall} (room : e.AllRoom calls)
    (key : BusinessKey) : (e.tierCalls calls).Kept H ∧
      (∀ v ∈ e.sealedVersions, v ∈ (e.tierCalls calls).sealedVersions) ∧
      (e.Spares key calls ↔ ∀ v ∈ (e.tierCalls calls).sealedVersions, v.businessKey = key →
        v ∈ e.sealedVersions) := by
  induction calls generalizing e with
  | nil => exact ⟨h, fun v hv => hv, iff_of_true trivial fun v hv _ => hv⟩
  | cons c calls ih =>
    obtain ⟨hroom, hrest⟩ := room
    obtain ⟨hkept, hsealed⟩ := h.tierCall hroom
    obtain ⟨hkept', hstay, hspares⟩ := ih hkept hrest
    refine ⟨hkept', fun v hv => hstay v ((hsealed v).2 (.inl hv)), ?_⟩
    rw [Spares, hspares]
    constructor
    · rintro ⟨hflush, hlater⟩ v hv hk
      -- it was sealed before the call, or the call is a flush that seals it
      rcases (hsealed v).1 (hlater v hv hk) with hv | ⟨hc, hv⟩
      · exact hv
      · exact hflush hc v hv hk
    · intro hall
      refine ⟨fun hc v hv hk => ?_, fun v hv hk => (hsealed v).2 (.inl (hall v hv hk))⟩
      exact hall v (hstay v ((hsealed v).2 (.inr ⟨hc, hv⟩))) hk

end Kept

/-- Every engine of a run is kept. -/
theorem kept_of_reach {e : Engine} (h : Reach e) : ∃ H, e.Kept H := by
  induction h with
  | create => exact ⟨_, Kept.create⟩
  | write run promised ih =>
    obtain ⟨H, hk⟩ := ih
    exact hk.write promised
  | group run promised txnId ih =>
    obtain ⟨H, hk⟩ := ih
    exact hk.group promised txnId
  | checkpoint run ih =>
    obtain ⟨H, hk⟩ := ih
    exact ⟨H, hk.checkpoint⟩
  | move run room ih =>
    obtain ⟨H, hk⟩ := ih
    exact ⟨H, (hk.tierCall room).1⟩

/-! ### What the listing shows -/

namespace ValidTable

variable {e e' : Engine} {H : History} {key : BusinessKey}

/-- A sealed version of the key is one of its periods. -/
theorem exists_period (h : e.ValidTable H) {v : Version} (hv : v ∈ e.sealedVersions)
    (hk : v.businessKey = key) : ∃ p ∈ H.periodsOf key, KeyPeriod.version key p = v := by
  obtain ⟨k, p, hp, rfl⟩ := (h.stores.represents.holds v).1 (.inr hv)
  rw [KeyPeriod.version_businessKey] at hk
  subst hk
  exact ⟨p, hp, rfl⟩

/-- A version is sealed if its identity is. -/
theorem id_mem_iff (h : e.ValidTable H) {p : KeyPeriod} (hp : p ∈ H.periodsOf key) :
    (KeyPeriod.version key p).id ∈ e.sealedVersions.map Version.id ↔
      KeyPeriod.version key p ∈ e.sealedVersions := by
  refine ⟨fun hid => ?_, List.mem_map_of_mem⟩
  obtain ⟨u, hu, huid⟩ := List.mem_map.1 hid
  have huv : u = KeyPeriod.version key p :=
    h.stores.represents.consistent h.stores.wellFormed (.inr hu)
      ((h.stores.represents.holds _).2 ⟨key, p, hp, rfl⟩) huid
  rwa [huv] at hu

/-- The interval of a listed version does not come off unnoticed. -/
theorem bare_resolved_ne (h : e.ValidTable H) {p : KeyPeriod} (hp : p ∈ H.periodsOf key) :
    (KeyPeriod.resolved key p).bare ≠ KeyPeriod.resolved key p := by
  have hframed : (KeyPeriod.version key p).Framed := h.framed _ ⟨key, p, hp, rfl⟩
  exact (hframed.of_payload (Version.stamp_payload _ _)).bare_ne

theorem shown_eq_bare_iff (h : e.ValidTable H) {p : KeyPeriod} (hp : p ∈ H.periodsOf key) :
    e.shown (KeyPeriod.resolved key p) = (KeyPeriod.resolved key p).bare ↔
      KeyPeriod.version key p ∉ e.sealedVersions := by
  rw [shown_resolved, ← h.id_mem_iff hp]
  split_ifs with hid
  · exact iff_of_false (h.bare_resolved_ne hp).symm (not_not.2 hid)
  · exact iff_of_true rfl hid

/-- The listing is bare exactly if no segment has a version of the key. -/
theorem versionHistory_bare_iff (h : e.ValidTable H) : e.versionHistory (some key) =
    .ok (((H.periodsOf key).map (KeyPeriod.resolved key)).reverse.map Version.bare) ↔
      ∀ v ∈ e.sealedVersions, v.businessKey ≠ key := by
  rw [versionHistory_eq h, Except.ok.injEq, timeline_eq h.stores, List.map_inj_left]
  simp only [List.mem_reverse, List.forall_mem_map]
  constructor
  · intro hall v hv hk
    obtain ⟨p, hp, rfl⟩ := h.exists_period hv hk
    exact (h.shown_eq_bare_iff hp).1 (hall p hp) hv
  · exact fun hnone p hp => (h.shown_eq_bare_iff hp).2 fun hv => hnone _ hv rfl

/-- Two listings agree exactly if the same versions of the key are sealed. -/
theorem versionHistory_congr_iff (h : e.ValidTable H) (h' : e'.ValidTable H)
    (hstay : ∀ v ∈ e.sealedVersions, v ∈ e'.sealedVersions) :
    e'.versionHistory (some key) = e.versionHistory (some key) ↔
      ∀ v ∈ e'.sealedVersions, v.businessKey = key → v ∈ e.sealedVersions := by
  rw [versionHistory_eq h, versionHistory_eq h', Except.ok.injEq, timeline_eq h.stores,
    timeline_eq h'.stores, List.map_inj_left]
  simp only [List.mem_reverse, List.forall_mem_map]
  constructor
  · intro hall v hv hk
    obtain ⟨p, hp, rfl⟩ := h'.exists_period hv hk
    by_contra hno
    -- a version sealed in between is shown bare before and framed after
    have hbare := (h.shown_eq_bare_iff hp).2 hno
    exact (h'.shown_eq_bare_iff hp).1 ((hall p hp).trans hbare) hv
  · intro hall p hp
    have hiff : KeyPeriod.version key p ∈ e'.sealedVersions ↔
        KeyPeriod.version key p ∈ e.sealedVersions := ⟨fun hv => hall _ hv rfl, hstay _⟩
    rw [shown_resolved, shown_resolved, if_congr ((h'.id_mem_iff hp).trans
      (hiff.trans (h.id_mem_iff hp).symm)) rfl rfl]

end ValidTable

/-- Before and after the calls the listing of the key is its timeline with bare payloads. -/
def TierIndependent (e : Engine) (calls : List TierCall) (key : BusinessKey) : Prop :=
  e.versionHistory (some key) = .ok ((e.timeline key).map Version.bare) ∧
    (e.tierCalls calls).versionHistory (some key) = .ok ((e.timeline key).map Version.bare)

end Engine

open Engine

/-- **The listing of a key depends on the tiers.**  In every run of a table with a valid-time axis,
calls leave the listing of a key as it is exactly if none of their flushes seals a version of the
key, and it has the bare payloads before and after exactly if no segment has a version of the key
before either. -/
theorem versionHistory_of_tierCalls {e : Engine} (h : Reach e) {calls : List TierCall}
    (room : e.AllRoom calls) (key : BusinessKey) :
    (e.TierIndependent calls key ↔
      (∀ v ∈ e.sealedVersions, v.businessKey ≠ key) ∧ e.Spares key calls) ∧
    ((e.tierCalls calls).versionHistory (some key) = e.versionHistory (some key) ↔
      e.Spares key calls) := by
  obtain ⟨H, hk⟩ := kept_of_reach h
  obtain ⟨hk', hstay, hspares⟩ := hk.tierCalls room key
  refine ⟨?_, ?_⟩
  · rw [TierIndependent, timeline_eq hk.stores, hk.validTable.versionHistory_bare_iff,
      hk'.validTable.versionHistory_bare_iff, hspares]
    -- with nothing of the key sealed before, staying so is sparing it
    refine and_congr_right fun hnone => ?_
    constructor
    · exact fun hnone' v hv hkey => absurd hkey (hnone' v hv)
    · exact fun hall v hv hkey => hnone v (hall v hv hkey) hkey
  · rw [hk.validTable.versionHistory_congr_iff hk'.validTable hstay, hspares]

/-- An interval of valid time. -/
def sampleInterval : ValidInterval := ⟨100, 200, by decide, by decide, by decide⟩

/-- A row with an interval, staged. -/
def stagedRow : Engine :=
  (Engine.write { writer := { validTime := true } }
    ⟨10, [1], 1, [], .insert (some sampleInterval) (some [7]) 0⟩).1

theorem reach_stagedRow : Reach stagedRow := by
  refine .write .create ⟨List.pairwise_singleton .., ?_, ?_⟩
  · intro w hw r hr
    exact nomatch hr
  · intro hlast w hw r hr
    exact nomatch hr

/-- A compaction and a recovery leave the listing of the staged row as it is. -/
theorem versionHistory_of_stagedRow :
    (stagedRow.tierCalls [.compact .done, .recover]).versionHistory (some [1]) =
      stagedRow.versionHistory (some [1]) := by
  have hroom : stagedRow.AllRoom [.compact .done, .recover] := by
    refine ⟨fun hlive => absurd hlive (by decide), ?_, trivial⟩
    change (stagedRow.tierCall (.compact .done)).liveSegments.length ≤ maxLiveSegments
    decide
  refine (versionHistory_of_tierCalls reach_stagedRow hroom [1]).2.2 ⟨?_, ?_, trivial⟩
  · exact fun hc => by cases hc
  · exact fun hc => by cases hc

/-- After a flush the row is listed with its interval in front of its payload. -/
theorem flush_changes_versionHistory :
    Reach stagedRow ∧ stagedRow.AllRoom [.flush .done] ∧
      ¬ stagedRow.TierIndependent [.flush .done] [1] ∧
      (stagedRow.versionHistory (some [1])).toOption.map (List.map Version.payload) =
        some [some [7]] ∧
      ((stagedRow.tierCalls [.flush .done]).versionHistory (some [1])).toOption.map
        (List.map Version.payload) = some [some (sampleInterval.encodePrefix ++ [7])] := by
  have hbefore : (stagedRow.versionHistory (some [1])).toOption.map (List.map Version.payload) =
      some [some [7]] := by decide
  have hafter : ((stagedRow.tierCalls [.flush .done]).versionHistory (some [1])).toOption.map
      (List.map Version.payload) = some [some (sampleInterval.encodePrefix ++ [7])] := by
    decide +kernel
  refine ⟨reach_stagedRow, ⟨trivial, trivial⟩, fun ⟨h, h'⟩ => ?_, hbefore, hafter⟩
  rw [h'] at hafter
  rw [h, hafter] at hbefore
  exact absurd hbefore (by decide)

end SteleDb
