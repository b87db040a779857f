import SteleDb.Storage.Recovery

/-!
# Runs of the engine

A run of an engine: single writes, transactions of several writes, flushes, compactions and
checkpoints, in any order, on a disk that works.

* `Engine.Sound.flush`, `Engine.Sound.compact`, `Engine.Sound.checkpoint` : the calls that rewrite
  what is on disk keep it sufficient;
* `recover_of_run` : after every run whose compactions find a live set that the manifest reader
  accepts and make a segment that the segment reader accepts, the recovered engine answers every
  read as the original does and has the same index;
* `recover_error_of_overfull` : a compaction of a larger live set leaves a disk that cannot be
  recovered.
-/

namespace SteleDb

open Timeline

/-! ### Flushes, compactions and checkpoints keep the invariant -/

namespace Engine

/-- What is read of segments is their rows, not how they were stored. -/
theorem packed_of_readSegments {files : SegmentFiles} {is : List ℕ} {s : Segment}
    (h : readSegments files is = some s) : s.packed = [] := by
  cases is with
  | nil => cases h; rfl
  | cons i is =>
    simp only [readSegments, Option.bind_eq_bind, Option.bind_eq_some_iff] at h
    obtain ⟨s₁, -, rest, -, hs⟩ := h
    cases hs
    rfl

theorem readSegments_append (files : SegmentFiles) (is js : List ℕ) :
    readSegments files (is ++ js) = (readSegments files is).bind fun s =>
      (readSegments files js).map fun s' =>
        { versions := s.versions ++ s'.versions,
          retractions := s.retractions ++ s'.retractions } := by
  induction is with
  | nil =>
    rw [List.nil_append]
    cases hjs : readSegments files js with
    | none => rfl
    | some s =>
      obtain ⟨versions, retractions, packed⟩ := s
      rw [show packed = [] from packed_of_readSegments hjs]
      rfl
  | cons i is ih =>
    rw [List.cons_append, readSegments, readSegments, ih]
    cases readSegment files i <;> cases readSegments files is <;>
      cases readSegments files js <;> simp

theorem getElem?_foldl_erase {files : SegmentFiles} {is : List ℕ} {i : ℕ} (hi : i ∉ is) :
    (is.foldl (fun files i => files.erase i) files)[i]? = files[i]? := by
  induction is generalizing files with
  | nil => rfl
  | cons j is ih =>
    have hij : j ≠ i := fun h => hi (h ▸ List.mem_cons_self)
    rw [List.foldl_cons, ih fun h => hi (List.mem_cons_of_mem _ h), OrdMap.getElem?_erase,
      if_neg hij]

theorem getElem?_foldl_erase_of_mem {files : SegmentFiles} {is : List ℕ} {i : ℕ} (hi : i ∈ is) :
    (is.foldl (fun files i => files.erase i) files)[i]? = none := by
  induction is generalizing files with
  | nil => cases hi
  | cons j is ih =>
    by_cases hmem : i ∈ is
    · exact ih hmem
    · rw [List.foldl_cons, getElem?_foldl_erase hmem, OrdMap.getElem?_erase,
        if_pos ((List.mem_cons.1 hi).resolve_right hmem).symm]

/-- A file that cannot be read stops the read. -/
theorem readSegments_eq_none {files : SegmentFiles} {is : List ℕ} {i : ℕ} (hi : i ∈ is)
    (h : readSegment files i = none) : readSegments files is = none := by
  induction is with
  | nil => cases hi
  | cons j is ih =>
    rcases List.mem_cons.1 hi with rfl | hi
    · rw [readSegments, h]; rfl
    · rw [readSegments, ih hi]
      cases readSegment files j <;> rfl

theorem readSegment_eq_none {files : SegmentFiles} {i : ℕ} (h : files[i]? = none) :
    readSegment files i = none := by
  rw [readSegment, h]; rfl

/-- One segment that the reader accepts. -/
theorem readSegments_singleton {files : SegmentFiles} {i : ℕ} {s : Segment}
    (hs : files[i]? = some s) (hread : s.Readable) : readSegments files [i] =
      some { versions := s.versions, retractions := s.retractions } := by
  rw [readSegments, readSegment_eq_some.2 ⟨hs, hread⟩]
  simp [readSegments]

/-- A segment written without dictionaries. -/
theorem readable_of_plain (versions : List Version) (retractions : List Close) :
    ({ versions, retractions } : Segment).Readable := fun _ h => absurd h List.not_mem_nil

/-- The output of a compaction is readable if its rows stay below the limit. -/
theorem readable_mergedSegment (e : Engine) {s : Segment} (h : s.rowBytes ≤ maxDecodedChunkLen) :
    (e.mergedSegment s).Readable := by
  intro cells hcells
  refine .inl ((expandedSize_le_of_mem_bytesColumns hcells).trans (le_trans (le_of_eq ?_) h))
  rw [flatten_rowGroupsOf, ((List.mergeSort_perm s.versions _).map _).sum_eq,
    ((List.mergeSort_perm s.retractions _).map _).sum_eq]
  rfl

namespace Covers

variable {e : Engine} {H : History}

theorem next_notMem {floor : ℕ} {live : List ℕ} {Hf : History} (h : e.Covers floor live Hf H) :
    e.nextSegmentIndex ∉ live :=
  fun hi => lt_irrefl _ (h.below _ hi)

/-- What is done to the file at the next index, and past it, does not touch the live ones. -/
theorem files {floor : ℕ} {live : List ℕ} {Hf : History} (h : e.Covers floor live Hf H)
    {e' : Engine} (hwal : e'.writer.wal.records = e.writer.wal.records)
    (hfiles : ∀ i ∈ live, e'.segments[i]? = e.segments[i]?)
    (hnext : e.nextSegmentIndex ≤ e'.nextSegmentIndex) : e'.Covers floor live Hf H := by
  obtain ⟨s, hs, hrest⟩ := h.read
  refine ⟨h.wellFormed, h.fits, ⟨s, (readSegments_congr hfiles).trans hs, hrest⟩, ?_, ?_, h.sorted,
    fun i hi => (h.below i hi).trans_le hnext⟩
  · rw [redosFrom, hwal]; exact h.rest
  · rw [hwal]; exact h.floor_le

end Covers

/-- What the live segments hold, with what is staged, is the table as it is. -/
theorem mem_flushed {e : Engine} {Hf H : History} {s : Segment} {rs : List Redo}
    (hst : Stores e.tiers e.sealedVersions H) (hsealed : ∀ v, v ∈ e.sealedVersions ↔ Hf.Asserts v)
    (hsv : ∀ v, v ∈ s.versions ↔ Hf.Asserts v) (hsr : ∀ c, c ∈ s.retractions ↔ Hf.Retracts c)
    (hwf : Hf.WellFormed) (hrest : Writes Hf rs H)
    (htomb : ∀ c, c ∈ e.tiers.delta.retractions ↔ Redo.retract c ∈ rs) :
    (∀ v, v ∈ e.sealedVersions ++ e.tiers.delta.stagedVersions ↔ H.Asserts v) ∧
      (∀ v, v ∈ s.versions ++ e.tiers.delta.stagedVersions ↔ H.Asserts v) ∧
      ∀ c, c ∈ s.retractions ++ e.tiers.delta.stagedRetractions ↔ H.Retracts c := by
  have hstaged : ∀ v, v ∈ e.tiers.delta.stagedVersions ↔ e.tiers.delta.Holds v := fun v =>
    Delta.mem_mergeStaged hst.delta_consistent
  have hall : ∀ v, v ∈ e.sealedVersions ++ e.tiers.delta.stagedVersions ↔ H.Asserts v := by
    intro v
    rw [List.mem_append, hstaged, or_comm]
    exact hst.represents.holds v
  refine ⟨hall, fun v => ?_, fun c => ?_⟩
  · rw [List.mem_append, hsv, ← hsealed, ← List.mem_append]
    exact hall v
  · rw [List.mem_append, hsr, Delta.stagedRetractions, KeyedMap.mem_values, hrest.retracts hwf]
    exact or_congr_right (htomb c)

/-- A record that the reader does not accept hides itself and all that follow. -/
theorem load_append_of_hidden {m : Manifest} {r : Option RecoveryPoint}
    (h : ∃ r' ∈ m ++ [r], r'.any RecoveryPoint.accepted = false) :
    Manifest.load (m ++ [r]) = Manifest.load m := by
  have htake : (m ++ [r]).takeWhile (fun r => r.any RecoveryPoint.accepted) =
      m.takeWhile fun r => r.any RecoveryPoint.accepted := by
    rw [List.takeWhile_append]
    split_ifs with hall
    · have hm : ∀ r' ∈ m, r'.any RecoveryPoint.accepted = true :=
        List.takeWhile_eq_self_iff.1 (List.IsPrefix.eq_of_length (List.takeWhile_prefix _) hall)
      obtain ⟨r', hr', hbad⟩ := h
      rcases List.mem_append.1 hr' with hr' | hr'
      · rw [hm r' hr'] at hbad; cases hbad
      · rw [List.mem_singleton.1 hr'] at hbad
        rw [List.takeWhile_eq_self_iff.2 hm, List.takeWhile_cons_of_neg (by simp [hbad]),
          List.append_nil]
    · rfl
  rw [Manifest.load, Manifest.load, htake]

/-- A compaction does no harm: if there is something to merge, the manifest reader accepts the live
set, and the segment reader what the merged segments become. -/
def Compactable (e : Engine) : Prop :=
  2 ≤ e.liveSegments.length → e.liveSegments.length ≤ maxLiveSegments ∧
    ∀ s ∈ readSegments e.segments e.liveSegments, (e.mergedSegment s).Readable

instance (e : Engine) : Decidable e.Compactable :=
  inferInstanceAs (Decidable (2 ≤ e.liveSegments.length → e.liveSegments.length ≤ maxLiveSegments ∧
    ∀ s ∈ readSegments e.segments e.liveSegments, (e.mergedSegment s).Readable))

namespace Sound

variable {e : Engine} {H : History}

theorem tick (h : e.Sound H) : ∃ w,
    e.tick = ({ e with writer := { e.writer with wal := w } }, .ok ()) ∧
    Sound { e with writer := { e.writer with wal := w } } H ∧
    w.durableEnd = w.records.length := by
  obtain ⟨w, hw, hrec, hheal, hend, -⟩ := h.wal.tick
  refine ⟨w, by simp only [Engine.tick, hw], ?_, by rw [hend, hrec]⟩
  exact h.unlogged h.idle hrec hheal (Tiers.Same.refl _) h.stamped

/-- The manifest after one more record, given what that record says. -/
theorem appended (h : e.Sound H) {e' : Engine} {p : RecoveryPoint} {Hf Hf' : History}
    (hman : e'.manifest = e.manifest ++ [some p])
    (hfloor : p.replayFloor = e'.replayFloor) (hlive : p.liveSegments = e'.liveSegments)
    (hmono : e.liveSegments.length ≤ e'.liveSegments.length ∨
      e.liveSegments.length ≤ maxLiveSegments)
    (hnew : e'.Covers e'.replayFloor e'.liveSegments Hf H)
    (hold : maxLiveSegments < e'.liveSegments.length →
      e'.Covers e.manifest.point.replayFloor e.manifest.point.liveSegments Hf' H) :
    (∃ Hf, e'.Covers e'.manifest.point.replayFloor e'.manifest.point.liveSegments Hf H) ∧
    (e'.liveSegments.length ≤ maxLiveSegments →
      (∀ r ∈ e'.manifest, r.any RecoveryPoint.accepted = true) ∧
        e'.manifest.point.replayFloor = e'.replayFloor ∧
          e'.manifest.point.liveSegments = e'.liveSegments) ∧
    (maxLiveSegments < e'.liveSegments.length →
      ∃ r ∈ e'.manifest, r.any RecoveryPoint.accepted = false) := by
  have hacc : p.accepted = decide (e'.liveSegments.length ≤ maxLiveSegments) := by
    rw [RecoveryPoint.accepted, hlive]
  by_cases hroom : e'.liveSegments.length ≤ maxLiveSegments
  · -- the record is read back
    have hp' : p.accepted = true := hacc.trans (decide_eq_true hroom)
    have hfew := h.few (hmono.elim (·.trans hroom) id)
    have hload : e'.manifest.point = p := by
      rw [Manifest.point, hman, Manifest.load_append hfew.1 hp']
      rfl
    refine ⟨⟨Hf, by rw [hload, hfloor, hlive]; exact hnew⟩,
      fun _ => ⟨fun r hr => ?_, by rw [hload, hfloor], by rw [hload, hlive]⟩,
      fun hlt => absurd hroom (not_le_of_gt hlt)⟩
    rw [hman] at hr
    rcases List.mem_append.1 hr with hr | hr
    · exact hfew.1 r hr
    · rw [List.mem_singleton.1 hr]; exact hp'
  · have hbad : (some p).any RecoveryPoint.accepted = false := hacc.trans (decide_eq_false hroom)
    have hmem : some p ∈ e.manifest ++ [some p] := by simp
    have hload : e'.manifest.point = e.manifest.point := by
      rw [Manifest.point, hman, load_append_of_hidden ⟨_, hmem, hbad⟩, Manifest.point]
    exact ⟨⟨Hf', by rw [hload]; exact hold (not_le.1 hroom)⟩, fun hle => absurd hle hroom,
      fun _ => ⟨some p, by rw [hman]; exact hmem, hbad⟩⟩

/-- A manifest record that repeats floor and live set. -/
theorem store (h : e.Sound H) {p : RecoveryPoint} (hfloor : p.replayFloor = e.replayFloor)
    (hlive : p.liveSegments = e.liveSegments) (f : Option ℕ) :
    ∃ e', e.store p = (e', .ok ()) ∧ Sound { e' with fence := f } H := by
  refine ⟨{ e with manifestFaults := e.manifestFaults.tail, manifest := e.manifest ++ [some p] },
    by simp only [Engine.store, h.manifestClean.next], ?_⟩
  obtain ⟨Hf, hcov, hsv⟩ := h.covers
  obtain ⟨Hf', hcov'⟩ := h.recoverable
  generalize hnew : ({ e with
    manifestFaults := e.manifestFaults.tail, manifest := e.manifest ++ [some p]
    fence := f } : Engine) = e'
  have hcov₁ : e'.Covers e'.replayFloor e'.liveSegments Hf H := by
    subst hnew
    exact hcov.files rfl (fun _ _ => rfl) le_rfl
  obtain ⟨hrec, hfew, hmany⟩ := h.appended (by subst hnew; rfl)
    (by subst hnew; exact hfloor) (by subst hnew; exact hlive)
    (by subst hnew; exact .inl le_rfl) hcov₁ fun _ => by
      subst hnew
      exact hcov'.files rfl (fun _ _ => rfl) le_rfl
  subst hnew
  exact ⟨h.stores, h.stamped, h.idle, h.wal, h.whole, h.manifestClean.tail, ⟨Hf, hcov₁, hsv⟩,
    hrec, h.tombstones, hfew, hmany⟩

/-- **A checkpoint keeps the engine sound.** -/
theorem checkpoint (h : e.Sound H) : e.checkpoint.1.Sound H := by
  obtain ⟨w, hw, h', -⟩ := h.tick
  obtain ⟨e', he', hs⟩ := h'.store (p := ⟨e.replayFloor, w.durableEnd, e.liveSegments⟩) rfl rfl
    (some w.durableEnd)
  simp only [Engine.checkpoint, hw, he']
  exact hs

/-- A segment that could not be written leaves the live ones alone. -/
theorem sealSegment_failed (h : e.Sound H) :
    Sound { e with segmentFaults := e.segmentFaults.tail
                   segments := e.segments.erase e.nextSegmentIndex } H := by
  obtain ⟨Hf, hcov, hsv⟩ := h.covers
  obtain ⟨Hf', hcov'⟩ := h.recoverable
  have herase : ∀ {live : List ℕ}, e.nextSegmentIndex ∉ live → ∀ i ∈ live,
      (e.segments.erase e.nextSegmentIndex)[i]? = e.segments[i]? := by
    intro live hnext i hi
    have hne : e.nextSegmentIndex ≠ i := fun heq => hnext (heq ▸ hi)
    rw [OrdMap.getElem?_erase, if_neg hne]
  exact ⟨h.stores, h.stamped, h.idle, h.wal, h.whole, h.manifestClean,
    ⟨Hf, hcov.files rfl (herase hcov.next_notMem) le_rfl, hsv⟩,
    ⟨Hf', hcov'.files rfl (herase hcov'.next_notMem) le_rfl⟩, h.tombstones, h.few, h.many⟩

/-- **A flush keeps the engine sound.** -/
theorem flush (h : e.Sound H) : e.flush.1.Sound H := by
  obtain ⟨w, hw, h', hend⟩ := h.tick
  simp only [Engine.flush, hw]
  split_ifs with hempty
  · obtain ⟨e', he', hs⟩ := h'.store (p := ⟨e.replayFloor, w.durableEnd, e.liveSegments⟩) rfl rfl
      (some w.durableEnd)
    simp only [he']
    exact hs
  · cases hf : e.segmentFaults.next with
    | failed => simp only [sealSegment, hf]; exact h'.sealSegment_failed
    | torn => simp only [sealSegment, hf]; exact h'.sealSegment_failed
    | done =>
      simp only [sealSegment, hf, Engine.store, h.manifestClean.next]
      obtain ⟨Hf, hcov, hsealed⟩ := h'.covers
      obtain ⟨Hf', hcov'⟩ := h'.recoverable
      obtain ⟨s, hs, hsv, hsr⟩ := hcov.read
      have htail : (w.records.drop w.durableEnd).flatMap WalRecord.redos = [] := by
        rw [hend, List.drop_length]; rfl
      obtain ⟨hsealed', hvers, hretr⟩ := mem_flushed h.stores hsealed hsv hsr hcov.wellFormed
        hcov.rest h'.tombstones
      have hfiles : ∀ {live : List ℕ}, e.nextSegmentIndex ∉ live → ∀ i ∈ live,
          (e.segments.insert e.nextSegmentIndex
            { versions := e.tiers.delta.stagedVersions
              retractions := e.tiers.delta.stagedRetractions })[i]? =
              e.segments[i]? := by
        intro live hnext i hi
        have hne : e.nextSegmentIndex ≠ i := fun heq => hnext (heq ▸ hi)
        rw [OrdMap.getElem?_insert, if_neg hne]
      -- the live segments with the new one hold the table as it is
      have hread : readSegments (e.segments.insert e.nextSegmentIndex
          { versions := e.tiers.delta.stagedVersions
            retractions := e.tiers.delta.stagedRetractions })
            (e.liveSegments ++ [e.nextSegmentIndex]) =
          some { versions := s.versions ++ e.tiers.delta.stagedVersions
                 retractions := s.retractions ++ e.tiers.delta.stagedRetractions } := by
        rw [readSegments_append, readSegments_congr (hfiles hcov.next_notMem), hs,
          readSegments_singleton ((OrdMap.getElem?_insert ..).trans (if_pos rfl))
            (readable_of_plain _ _)]
        rfl
      generalize hnew : ({ e with
        writer := { e.writer with wal := w }
        sealedVersions := e.sealedVersions ++ e.tiers.delta.stagedVersions
        liveSegments := e.liveSegments ++ [e.nextSegmentIndex]
        nextSegmentIndex := e.nextSegmentIndex + 1
        replayFloor := w.durableEnd
        fence := some w.durableEnd
        tiers := { e.tiers with delta := e.tiers.delta.discardFlushed }
        manifest := e.manifest ++ [some ⟨w.durableEnd, w.durableEnd,
          e.liveSegments ++ [e.nextSegmentIndex]⟩]
        manifestFaults := e.manifestFaults.tail
        segmentFaults := e.segmentFaults.tail
        segments := e.segments.insert e.nextSegmentIndex
          { versions := e.tiers.delta.stagedVersions
            retractions := e.tiers.delta.stagedRetractions } } : Engine) = e'
      have hcov₁ : e'.Covers e'.replayFloor e'.liveSegments H H := by
        subst hnew
        refine ⟨h.stores.wellFormed, hcov.rest.closesFit hcov.wellFormed hcov.fits,
          ⟨_, hread, hvers, hretr⟩, ?_, hend.le, ?_, ?_⟩
        · rw [redosFrom, htail]; exact .nil H
        · refine List.pairwise_append.2
            ⟨hcov.sorted, List.pairwise_singleton .., fun i hi j hj => ?_⟩
          rw [List.mem_singleton.1 hj]
          exact hcov.below i hi
        · intro i hi
          rcases List.mem_append.1 hi with hi | hi
          · exact (hcov.below i hi).trans (Nat.lt_succ_self _)
          · rw [List.mem_singleton.1 hi]; exact Nat.lt_succ_self _
      have hlen : e.liveSegments.length ≤ e'.liveSegments.length := by
        subst hnew
        rw [List.length_append]
        exact Nat.le_add_right _ _
      obtain ⟨hrec, hfew, hmany⟩ := h'.appended (by subst hnew; rfl) (by subst hnew; rfl)
        (by subst hnew; rfl) (.inl hlen) hcov₁ fun _ => by
          subst hnew
          exact hcov'.files rfl (hfiles hcov'.next_notMem) (Nat.le_succ _)
      subst hnew
      refine ⟨h.stores.sealStaged fun v => List.mem_append, h.stamped, h.idle, h'.wal, h'.whole,
        h.manifestClean.tail, ⟨H, hcov₁, hsealed'⟩, hrec, fun c => ?_, hfew, hmany⟩
      rw [redosFrom, htail]
      simp [Delta.discardFlushed, Delta.clearStaged]

/-- **A compaction keeps the engine sound**, when the manifest reader accepts its live set and the
segment reader its output. -/
theorem compact (h : e.Sound H) (hroom : e.Compactable) : e.compact.1.Sound H := by
  unfold Engine.compact
  split_ifs with hfew
  · exact h
  obtain ⟨hshort, hreadable⟩ := hroom (not_lt.1 hfew)
  obtain ⟨w, hw, h', hend⟩ := h.tick
  obtain ⟨Hf, hcov, hsealed⟩ := h'.covers
  obtain ⟨s, hs, hsv, hsr⟩ := hcov.read
  simp only [hw, hs]
  cases hf : e.segmentFaults.next with
  | failed => simp only [sealSegment, hf]; exact h'.sealSegment_failed
  | torn => simp only [sealSegment, hf]; exact h'.sealSegment_failed
  | done =>
    simp only [sealSegment, hf, Engine.store, h.manifestClean.next]
    have hsv' : ∀ v, v ∈ (e.mergedSegment s).versions ↔ Hf.Asserts v := fun v =>
      List.mem_mergeSort.trans (hsv v)
    have hsr' : ∀ c, c ∈ (e.mergedSegment s).retractions ↔ Hf.Retracts c := fun c =>
      List.mem_mergeSort.trans (hsr c)
    have hout : (e.mergedSegment s).Readable := hreadable s hs
    generalize hseg : e.mergedSegment s = output at hsv' hsr' hout
    have hmerged : mergedSegment { e with writer := { e.writer with wal := w } } s = output := hseg
    rw [hmerged]
    -- the merged segment is not one of those retired
    have hread : readSegments (e.liveSegments.foldl (fun files i => files.erase i)
        (e.segments.insert e.nextSegmentIndex output)) [e.nextSegmentIndex] =
          some { versions := output.versions, retractions := output.retractions } := by
      refine readSegments_singleton ?_ hout
      rw [getElem?_foldl_erase hcov.next_notMem]
      exact (OrdMap.getElem?_insert ..).trans (if_pos rfl)
    generalize hnew : ({ e with
      writer := { e.writer with wal := w }
      sealedVersions := output.versions
      liveSegments := [e.nextSegmentIndex]
      nextSegmentIndex := e.nextSegmentIndex + 1
      fence := some w.durableEnd
      manifest := e.manifest ++ [some ⟨e.replayFloor, w.durableEnd, [e.nextSegmentIndex]⟩]
      manifestFaults := e.manifestFaults.tail
      segmentFaults := e.segmentFaults.tail
      segments := e.liveSegments.foldl (fun files i => files.erase i)
        (e.segments.insert e.nextSegmentIndex output) } : Engine) = e'
    have hlive : e'.liveSegments = [e.nextSegmentIndex] := by subst hnew; rfl
    have hcov₁ : e'.Covers e'.replayFloor e'.liveSegments Hf H := by
      subst hnew
      refine ⟨hcov.wellFormed, hcov.fits, ⟨_, hread, hsv', hsr'⟩, hcov.rest, hcov.floor_le,
        List.pairwise_singleton .., fun i hi => ?_⟩
      rw [List.mem_singleton.1 hi]; exact Nat.lt_succ_self _
    obtain ⟨hrec, hfew', hmany⟩ := h'.appended (by subst hnew; rfl)
      (by subst hnew; rfl) (by subst hnew; rfl) (.inr hshort) hcov₁ fun hlt =>
        show e'.Covers _ _ Hf H by
          rw [hlive] at hlt
          exact absurd hlt (not_lt.2 Nat.one_le_two_pow)
    subst hnew
    exact ⟨h.stores.sealed_congr fun v => (hsv' v).trans (hsealed v).symm, h.stamped, h.idle,
      h'.wal, h'.whole, h.manifestClean.tail, ⟨Hf, hcov₁, hsv'⟩, hrec, h'.tombstones, hfew', hmany⟩

end Sound

end Engine

/-! ### Runs -/

/-- A call of the engine. -/
inductive Call where
  /-- One insert, update or delete. -/
  | write (w : DmlWrite)
  /-- A transaction, as a leg of a larger one if it has an id. -/
  | group (ws : List DmlWrite) (txnId : Option TxnId)
  /-- Seal what is staged. -/
  | flush
  /-- Merge the live segments. -/
  | compact
  /-- Record the durable end of the log. -/
  | checkpoint
  deriving DecidableEq

/-- The writes of a call. -/
def Call.writes : Call → List DmlWrite
  | .write w => [w]
  | .group ws _ => ws
  | _ => []

namespace Engine

/-- The engine after a call, whether it succeeded or not. -/
def call (e : Engine) : Call → Engine
  | .write w => (e.write w).1
  | .group ws txnId => (e.groupCommit ws txnId).1
  | .flush => e.flush.1
  | .compact => e.compact.1
  | .checkpoint => e.checkpoint.1

/-- The engine after calls on a new table, whose log and manifest work; `faults` says what happens
to the segment files. -/
def run (validTime : Bool) (faults : Faults) (calls : List Call) : Engine :=
  calls.foldl call { writer := { validTime }, segmentFaults := faults }

variable {validTime : Bool} {faults : Faults}

@[simp] theorem run_append (calls calls' : List Call) :
    run validTime faults (calls ++ calls') = calls'.foldl call (run validTime faults calls) :=
  List.foldl_append

/-- No compaction of the run does harm. -/
def CompactsInTime (validTime : Bool) (faults : Faults) (calls : List Call) : Prop :=
  ∀ past, past ++ [.compact] <+: calls → (run validTime faults past).Compactable

/-- One call keeps the engine sound. -/
theorem Sound.call {e : Engine} {H : History} (h : e.Sound H) {past : List DmlWrite} {c : Call}
    (hfrom : FromWrites H past) (hseq : SeqContract (past ++ c.writes))
    (hroom : c = .compact → e.Compactable) :
    ∃ H', (e.call c).Sound H' ∧ FromWrites H' (past ++ c.writes) := by
  cases c with
  | write w => exact h.write hfrom hseq
  | group ws txnId => exact h.groupCommit txnId hfrom hseq
  | flush => exact ⟨H, h.flush, hfrom.from_ (.refl H _)⟩
  | compact => exact ⟨H, h.compact (hroom rfl), hfrom.from_ (.refl H _)⟩
  | checkpoint => exact ⟨H, h.checkpoint, hfrom.from_ (.refl H _)⟩

/-- Every run is sound. -/
theorem sound_run {calls : List Call} (hseq : SeqContract (calls.flatMap Call.writes))
    (hroom : CompactsInTime validTime faults calls) :
    ∃ H, (run validTime faults calls).Sound H ∧ FromWrites H (calls.flatMap Call.writes) := by
  induction calls using List.reverseRecOn with
  | nil => exact ⟨_, sound_empty validTime faults, fun k ev hev => (nomatch hev)⟩
  | append_singleton calls c ih =>
    rw [List.flatMap_append] at hseq ⊢
    obtain ⟨H, hs, hfrom⟩ := ih (hseq.sublist (List.sublist_append_left _ _)) fun past hp =>
      hroom past (hp.trans (List.prefix_append _ _))
    rw [List.flatMap_singleton] at hseq ⊢
    rw [run_append]
    exact hs.call hfrom hseq fun hc => hroom calls (by rw [hc])

/-- A read over all sealed versions sees those of the key only. -/
theorem asOf_eq (e : Engine) (k : BusinessKey) (s : SystemTimeMicros) :
    e.asOf k s = resolveLive e.tiers e.sealedVersions k s := by
  simp only [Engine.asOf, resolveLive, resolveOpen, resolvedChain, versionsFor, List.filter_filter,
    Bool.and_self]

end Engine

open Engine

/-- **Recovery of a run.**  After every run of writes, transactions, flushes, compactions and
checkpoints in which no compaction finds more live segments than the manifest reader accepts, or
makes a segment that the segment reader refuses, the disk can be recovered, and the recovered engine
answers every read as the original does and has the same index. -/
theorem recover_of_run (validTime : Bool) (faults : Faults) (calls : List Call)
    (hseq : SeqContract (calls.flatMap Call.writes))
    (hroom : CompactsInTime validTime faults calls) :
    ∃ e, Engine.recover (run validTime faults calls).disk validTime = .ok e ∧
      (∀ k s, e.asOf k s = (run validTime faults calls).asOf k s) ∧
      e.tiers.index.materialize = (run validTime faults calls).tiers.index.materialize := by
  obtain ⟨H, h, -⟩ := sound_run hseq hroom
  obtain ⟨e, he, hst⟩ := h.recover validTime
  refine ⟨e, he, fun k s => ?_, hst.materialize_congr h.stores⟩
  rw [asOf_eq, asOf_eq]
  exact hst.resolveLive_congr h.stores k s

/-- A version is opened, sealed, closed by a transaction after the seal, sealed again and merged;
the last write is in the log only. -/
def sampleCalls : List Call :=
  [.write ⟨10, [1], 1, [], .insert none (some [7]) 0⟩, .flush,
    .group [⟨20, [1], 2, [], .update none (some [8]) 0⟩, ⟨20, [2], 2, [], .insert none none 0⟩]
      (some 2),
    .write ⟨30, [2], 3, [], .delete⟩, .flush, .compact, .checkpoint,
    .write ⟨40, [1], 4, [], .delete⟩]

theorem recover_of_sampleCalls :
    SeqContract (sampleCalls.flatMap Call.writes) ∧ CompactsInTime false [] sampleCalls ∧
      ∃ e, Engine.recover (run false [] sampleCalls).disk false = .ok e ∧
        e.asOf [1] 25 = (run false [] sampleCalls).asOf [1] 25 ∧
        e.asOf [1] 40 = (run false [] sampleCalls).asOf [1] 40 := by
  have hseq : SeqContract (sampleCalls.flatMap Call.writes) := by
    simp [SeqContract, sampleCalls, Call.writes, DmlWrite.seq]
  have hroom : CompactsInTime false [] sampleCalls := by
    intro past hp hfew
    have hall : ∀ past ∈ sampleCalls.inits, past ++ [.compact] ∈ sampleCalls.inits →
        (run false [] past).liveSegments.length ≤ maxLiveSegments ∧
          ∀ s ∈ readSegments (run false [] past).segments (run false [] past).liveSegments,
            s.rowBytes ≤ maxDecodedChunkLen := by decide
    obtain ⟨hlive, hbytes⟩ := hall past
      ((List.mem_inits _ _).2 ((List.prefix_append past [.compact]).trans hp))
      ((List.mem_inits _ _).2 hp)
    exact ⟨hlive, fun s hs => readable_mergedSegment _ (hbytes s hs)⟩
  obtain ⟨e, he, hasOf, -⟩ := recover_of_run false [] sampleCalls hseq hroom
  exact ⟨hseq, hroom, e, he, hasOf _ _, hasOf _ _⟩

/-! ### An overfull live set -/

/-- A key of three bytes for each number below `2 ^ 24`. -/
def roundKey (i : ℕ) : BusinessKey :=
  [Fin.ofNat 256 (i / 65536), Fin.ofNat 256 (i / 256), Fin.ofNat 256 i]

/-- An insert of a new key at instant `i`. -/
def roundInsert (i : ℕ) : DmlWrite := ⟨i, roundKey i, i, [], .insert none none 0⟩

/-- `n` rounds of one insert and one flush each. -/
def rounds (n : ℕ) : List Call := (List.range n).flatMap fun i => [.write (roundInsert i), .flush]

theorem rounds_succ (n : ℕ) : rounds (n + 1) = rounds n ++ [.write (roundInsert n), .flush] := by
  simp [rounds, List.range_succ]

theorem writes_rounds (n : ℕ) :
    (rounds n).flatMap Call.writes = (List.range n).map roundInsert := by
  induction n with
  | zero => rfl
  | succ n ih =>
    rw [rounds_succ, List.flatMap_append, ih, List.range_succ, List.map_append]
    rfl

theorem seqContract_rounds (n : ℕ) : SeqContract ((List.range n).map roundInsert) := by
  rw [SeqContract, List.pairwise_map]
  refine List.pairwise_lt_range.imp fun {i j} hij _ hnow => ?_
  exact absurd (Int.ofNat.inj hnow) hij.ne

theorem compactsInTime_rounds (n : ℕ) : CompactsInTime false [] (rounds n) := by
  intro past hp
  have hmem : Call.compact ∈ rounds n := hp.subset (by simp)
  simp [rounds] at hmem

theorem roundKey_inj {i j : ℕ} (hi : i < 2 ^ 24) (hj : j < 2 ^ 24) (h : roundKey i = roundKey j) :
    i = j := by
  simp only [roundKey, List.cons.injEq, Fin.ofNat, Fin.mk.injEq, and_true] at h
  omega

/-- An insert of a key that was never written is accepted and staged. -/
theorem Engine.Sound.write_roundInsert {e : Engine} {H : History} (h : e.Sound H) {n : ℕ}
    (hv : e.writer.validTime = false) (hfrom : FromWrites H ((List.range n).map roundInsert))
    (hprev : ∀ prev ∈ e.writer.writer.lastCommit, prev ≤ (n : ℤ)) (hn : n < 2 ^ 24) :
    ∃ dw t v, (e.write (roundInsert n)).1 = { e with writer := dw, tiers := t } ∧
      t.delta.Holds v ∧ dw.writer.lastCommit = some (n : ℤ) ∧ dw.validTime = false := by
  have hdead : ¬ H.Live (roundKey n) := by
    intro hlive
    obtain ⟨ev, hev, hval⟩ := exists_open_iff.1 hlive
    obtain ⟨x, hx⟩ := Option.isSome_iff_exists.1 hval
    obtain ⟨w, hw, hk, -⟩ := hfrom _ ev (List.mem_of_mem_head? hev) x hx
    obtain ⟨i, hi, rfl⟩ := List.mem_map.1 hw
    have hi' := List.mem_range.1 hi
    exact absurd (roundKey_inj (hi'.trans hn) hn hk) hi'.ne
  have hle := h.stamped_of_le hprev
  have hnow : (n : ℤ) < systemTimeOpen := by
    rw [systemTimeOpen, i64Max]
    omega
  have hstage : e.writer.stage e.tiers e.sealedVersions (roundInsert n) =
      (⟨some n⟩, .ok (n, [.insert (openVersion (roundKey n) n 0 none n [])])) := by
    simp only [DmlWriter.stage, roundInsert, hv, framePayload,
      (h.stores.stageInsert hprev hnow (hle _)).2 hdead]
    rfl
  have hsize : encodeRedo [.insert (openVersion (roundKey n) n 0 none n [])] = .ok 48 := by
    have henc : (openVersion (roundKey n) n 0 none n []).Encodable := by
      simp [Version.Encodable, openVersion, Version.mkOpen, Version.encodedSize, roundKey,
        Version.headerLen, Version.maxVersionFrameLen]
    simp only [encodeRedo, Redo.encodedLen, Delta.checkEncodable_of henc]
    rfl
  have hseq : SeqContract ((List.range n).map roundInsert ++ [roundInsert n]) := by
    have := seqContract_rounds (n + 1)
    rwa [List.range_succ, List.map_append] at this
  have hwf := h.stores.wellFormed.write_staged (w := roundInsert n) (a := some (0, none)) hle hnow
    rfl (hfrom.takes hseq).head
  have hstaged : StagedAs H (roundKey n) (keyEvent n n [] (some (0, none)))
      [.insert (openVersion (roundKey n) n 0 none n [])] := .insert hdead (a := (0, none)) rfl
  have hwr := hstaged.writes (encodable_of_encodeRedo hsize) hwf
  obtain ⟨w', hw', -, -⟩ := h.wal.append
    (.whole none [.insert (openVersion (roundKey n) n 0 none n [])]) (n := 48) (by decide)
  have hlog : appendGroupRecord e.writer.wal none
      [.insert (openVersion (roundKey n) n 0 none n [])] = (w', .ok ()) := by
    simp only [appendGroupRecord, hsize, Option.isSome_none, Bool.false_eq_true, if_false, hw']
  obtain ⟨t', ht', -, hst'⟩ := h.stores.applyRedos hwr true
  refine ⟨{ e.writer with wal := w', writer := ⟨some n⟩, group := none }, t',
    openVersion (roundKey n) n 0 none n [], ?_, (hst'.holds _).2 (.inr List.mem_cons_self), rfl, hv⟩
  simp only [Engine.write, DmlWriter.write, hstage, DmlWriter.logAndApply, h.idle, hlog, apply, ht']

/-- A flush of an engine that has staged a version seals it. -/
theorem Engine.Sound.flush_staged {e : Engine} {H : History} (h : e.Sound H)
    (hf : e.segmentFaults = []) {v : Version} (hv : e.tiers.delta.Holds v) :
    ∃ f, e.flush.1.liveSegments = e.liveSegments ++ [e.nextSegmentIndex] ∧
      e.flush.1.manifest = e.manifest ++ [some ⟨f, f, e.liveSegments ++ [e.nextSegmentIndex]⟩] ∧
      e.flush.1.segmentFaults = [] ∧ e.flush.1.writer.writer = e.writer.writer ∧
      e.flush.1.writer.validTime = e.writer.validTime := by
  obtain ⟨w, hw, -, -⟩ := h.tick
  have hne : ¬ (e.tiers.delta.stagedVersions.isEmpty = true ∧
      e.tiers.delta.stagedRetractions.isEmpty = true) := by
    rintro ⟨hempty, -⟩
    have hmem : v ∈ e.tiers.delta.stagedVersions :=
      (Delta.mem_mergeStaged h.stores.delta_consistent).2 hv
    rw [List.isEmpty_iff.1 hempty] at hmem
    cases hmem
  have hnext : e.segmentFaults.next = .done := by rw [hf]; rfl
  refine ⟨w.durableEnd, ?_⟩
  simp only [Engine.flush, hw, if_neg hne, sealSegment, hnext, Engine.store, h.manifestClean.next]
  exact ⟨trivial, trivial, by rw [hf]; rfl, trivial, trivial⟩

/-- A compaction of at least two segments retires them. -/
theorem Engine.Sound.compact_retires {e : Engine} {H : History} (h : e.Sound H)
    (hf : e.segmentFaults = []) (hlen : 2 ≤ e.liveSegments.length) :
    ∃ p s, e.compact.1.manifest = e.manifest ++ [some p] ∧
      e.compact.1.segments = e.liveSegments.foldl (fun files i => files.erase i)
        (e.segments.insert e.nextSegmentIndex s) := by
  obtain ⟨w, hw, h', -⟩ := h.tick
  obtain ⟨Hf, hcov, -⟩ := h'.covers
  obtain ⟨s, hs, -, -⟩ := hcov.read
  have hnext : e.segmentFaults.next = .done := by rw [hf]; rfl
  simp only [Engine.compact, if_neg (not_lt.2 hlen), hw, hs, sealSegment, hnext, Engine.store,
    h.manifestClean.next]
  exact ⟨_, _, rfl, rfl⟩

theorem sound_rounds (n : ℕ) : ∃ H, (run false [] (rounds n)).Sound H ∧
    FromWrites H ((List.range n).map roundInsert) := by
  have := sound_run (by rw [writes_rounds]; exact seqContract_rounds n) (compactsInTime_rounds n)
  rwa [writes_rounds] at this

/-- The state after `n` rounds that the next round depends on. -/
structure AfterRounds (n : ℕ) (e : Engine) : Prop where
  live : e.liveSegments.length = n
  faults : e.segmentFaults = []
  stamp : ∀ prev ∈ e.writer.writer.lastCommit, prev ≤ (n : ℤ)
  validTime : e.writer.validTime = false

/-- A round adds a segment and a manifest record that names all of them. -/
theorem AfterRounds.succ {n : ℕ} (hn : n < 2 ^ 24) (h : AfterRounds n (run false [] (rounds n))) :
    AfterRounds (n + 1) (run false [] (rounds (n + 1))) ∧
      ∃ f i, (run false [] (rounds (n + 1))).liveSegments =
          (run false [] (rounds n)).liveSegments ++ [i] ∧
        (run false [] (rounds (n + 1))).manifest = (run false [] (rounds n)).manifest ++
          [some ⟨f, f, (run false [] (rounds n)).liveSegments ++ [i]⟩] := by
  obtain ⟨H, hs, hfrom⟩ := sound_rounds n
  obtain ⟨dw, t, v, hw, hv, hlast, hval⟩ := hs.write_roundInsert h.validTime hfrom h.stamp hn
  have hrun : run false [] (rounds (n + 1)) =
      ({ run false [] (rounds n) with writer := dw, tiers := t } : Engine).flush.1 := by
    rw [← hw, rounds_succ, run_append]
    rfl
  obtain ⟨H', hs', -⟩ := hs.call (c := .write (roundInsert n)) hfrom (by
    have := seqContract_rounds (n + 1)
    rwa [List.range_succ, List.map_append] at this) fun hc => nomatch hc
  rw [Engine.call, hw] at hs'
  obtain ⟨f, hlive, hman, hfaults, hwriter, hvt⟩ := hs'.flush_staged h.faults hv
  rw [hrun]
  refine ⟨⟨?_, hfaults, fun prev hp => ?_, hvt.trans hval⟩, f, _, hlive, hman⟩
  · rw [hlive, List.length_append, h.live]; rfl
  · rw [hwriter, show _ = some (n : ℤ) from hlast] at hp
    cases hp
    exact Int.ofNat_le.2 (Nat.le_succ n)

theorem afterRounds {n : ℕ} (hn : n ≤ 2 ^ 24) : AfterRounds n (run false [] (rounds n)) := by
  induction n with
  | zero => exact ⟨rfl, rfl, fun prev hp => (nomatch hp), rfl⟩
  | succ n ih => exact (AfterRounds.succ hn (ih (Nat.le_of_succ_le hn))).1

theorem recover_error_of_rounds {n : ℕ} (hn : n = maxLiveSegments) :
    Engine.recover (run false [] (rounds (n + 1) ++ [.compact])).disk false = .error .segment := by
  have hlt : n < 2 ^ 24 := by rw [hn, maxLiveSegments]; omega
  have hfull := afterRounds hlt.le
  obtain ⟨hover, f, i, hlive, hman⟩ := hfull.succ hlt
  obtain ⟨H₀, hs₀, -⟩ := sound_rounds n
  obtain ⟨H₁, hs₁, -⟩ := sound_rounds (n + 1)
  have hpos : 0 < n := by rw [hn]; exact Nat.two_pow_pos _
  obtain ⟨p, s, hman', hsegs⟩ := hs₁.compact_retires hover.faults
    (by rw [hover.live]; omega)
  rw [run_append]
  change Engine.recover (run false [] (rounds (n + 1))).compact.1.disk false = _
  generalize run false [] (rounds n) = e₀ at *
  generalize run false [] (rounds (n + 1)) = e₁ at *
  -- the last record that is read back is the one before the flush too many
  have hbad : (some ⟨f, f, e₀.liveSegments ++ [i]⟩ : Option RecoveryPoint).any
      RecoveryPoint.accepted = false := by
    refine decide_eq_false (not_le.2 ?_)
    change maxLiveSegments < (e₀.liveSegments ++ [i]).length
    rw [List.length_append, hfull.live, hn]
    exact Nat.lt_succ_self _
  have hload : Manifest.load (e₁.manifest ++ [some p]) = Manifest.load e₀.manifest := by
    rw [hman, load_append_of_hidden ⟨_, by simp, hbad⟩, load_append_of_hidden ⟨_, by simp, hbad⟩]
  have hloaded := (hs₀.few (hfull.live.trans hn).le).2
  have hlive₀ : ((Manifest.load e₀.manifest).map RecoveryPoint.liveSegments).getD [] =
      e₀.liveSegments := by
    rw [(Manifest.point_fields _).2.2, hloaded.2]
  -- it names segments that the compaction retired
  obtain ⟨j, hj⟩ : ∃ j, j ∈ e₀.liveSegments :=
    List.exists_mem_of_length_pos (by rw [hfull.live]; exact hpos)
  have hgone : readSegment (e₁.compact.1.segments.filter fun i _ => i ∈ e₀.liveSegments) j =
      none := by
    refine readSegment_eq_none ?_
    rw [Std.ExtTreeMap.getElem?_filter', hsegs,
      getElem?_foldl_erase_of_mem (by rw [hlive]; exact List.mem_append_left _ hj)]
    rfl
  obtain ⟨Hf, hcov, -⟩ := hs₀.covers
  simp only [Engine.recover, recoverWithCommits, Engine.disk, hman', hload, hlive₀,
    KeyedMap.values_ofList hcov.sorted, readSegments_eq_none hj hgone]

/-- A disk that cannot be recovered: one flush too many, then a compaction. -/
theorem recover_error_of_overfull :
    let calls := rounds (maxLiveSegments + 1) ++ [.compact]
    SeqContract (calls.flatMap Call.writes) ∧
      Engine.recover (run false [] calls).disk false = .error .segment := by
  generalize hn : maxLiveSegments = n
  refine ⟨?_, recover_error_of_rounds hn.symm⟩
  have hcompact : Call.compact.writes = [] := rfl
  rw [List.flatMap_append, writes_rounds, List.flatMap_singleton, hcompact, List.append_nil]
  exact seqContract_rounds _

end SteleDb
