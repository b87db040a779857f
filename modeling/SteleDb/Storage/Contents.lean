import SteleDb.Storage.Engine

/-!
# What an engine holds

The versions of a table are in its delta tier, in its live segments and in the segment files.  Every
operation moves them between the three, drops some or adds the one it writes, also when it fails
half-way; none changes a version, or the table's valid-time policy.

* `Engine.Contains` : the versions an engine holds in any of the three;
* `Engine.Gains P e e'` : what `e'` holds and `e` does not, `P` is true of;
* `Engine.gains_write` : a write adds versions of its own instant and payload only;
* `Engine.contains_asOf` : a read finds what the engine holds.
-/

namespace SteleDb

/-! ### The tiers -/

namespace Delta

variable {d : Delta} {v w : Version}

/-- A spill moves rows, or loses them. -/
theorem holds_spillInMemory (h : d.spillInMemory.1.Holds w) : d.Holds w := by
  have hnew : w ∉ MemTier.new.rows := KeyedMap.not_mem_empty w
  unfold spillInMemory at h
  dsimp only at h
  split at h
  · exact h.imp (fun hmem => absurd hmem hnew) fun hspill => hspill
  · split at h
    · rcases h with hmem | hspill
      · exact absurd hmem hnew
      · simp only [spillRows, List.flatMap_append, List.flatMap_singleton, List.mem_append]
          at hspill
        rcases hspill with hspill | hrow
        · exact .inr hspill
        · exact .inl (KeyedMap.mem_values.1 hrow)
    · exact h.imp (fun hmem => absurd hmem hnew) fun hspill => hspill

theorem holds_insertInner {b : Bool} (h : (d.insertInner v b).1.Holds w) : d.Holds w ∨ w = v := by
  have hins : ∀ d' : Delta, { d' with mem := d'.mem.insert v }.Holds w → d'.Holds w ∨ w = v := by
    intro d' h'
    rcases h' with hmem | hspill
    · exact (MemTier.mem_insert.1 hmem).elim .inr fun hw => .inl (.inl hw.1)
    · exact .inl (.inr hspill)
  unfold insertInner at h
  split at h
  · exact .inl h
  · dsimp only at h
    split at h
    · have hspill := @holds_spillInMemory d w
      rcases hd : d.spillInMemory with ⟨d₁, e | ⟨⟩⟩
      all_goals
        rw [hd] at h hspill
      · exact .inl (hspill h)
      · exact (hins d₁ h).imp_left hspill
    · exact hins d h

theorem holds_of_removeVersion {i : VersionId} (h : (d.removeVersion i).Holds w) : d.Holds w :=
  (holds_removeVersion.1 h).imp (fun hw => hw.1) fun hw => hw

theorem holds_of_mem_stagedVersions (h : w ∈ d.stagedVersions) : d.Holds w := by
  rcases KeyedMap.mem_insertAll_subset (KeyedMap.mem_values.1 h) with hmem | hspill
  · exact .inl (KeyedMap.mem_values.1 (KeyedMap.mem_of_mem_ofList hmem))
  · exact .inr hspill

end Delta

variable {t : Tiers} {w : Version}

theorem holds_applyRedo {b : Bool} {r : Redo} (h : (applyRedo b t r).1.delta.Holds w) :
    t.delta.Holds w ∨ r = .insert w := by
  cases r with
  | insert v =>
    have hins := @Delta.holds_insertInner t.delta v w b
    rw [applyRedo] at h
    rcases hd : t.delta.insertInner v b with ⟨d, e | ⟨⟩⟩
    all_goals
      rw [hd] at h hins
      exact (hins h).imp_right fun hw => by rw [hw]
  | close c =>
    rw [applyRedo] at h
    split at h <;> exact .inl h
  | retract c =>
    rw [applyRedo] at h
    split at h <;> exact .inl h

theorem holds_applyRedos {b : Bool} {redos : List Redo}
    (h : (applyRedos b t redos).1.delta.Holds w) : t.delta.Holds w ∨ .insert w ∈ redos := by
  induction redos generalizing t with
  | nil => exact .inl h
  | cons r rs ih =>
    have hone := @holds_applyRedo t w b r
    rw [applyRedos] at h
    rcases hr : applyRedo b t r with ⟨t₁, e | ⟨⟩⟩
    all_goals
      rw [hr] at h hone
    · exact (hone h).imp_right fun heq => by rw [heq]; exact List.mem_cons_self
    · rcases ih h with hw | hmem
      · exact (hone hw).imp_right fun heq => by rw [heq]; exact List.mem_cons_self
      · exact .inr (List.mem_cons_of_mem _ hmem)

/-- Undoing adds no version. -/
theorem holds_undo {redos : List Redo} (h : (undo t redos).delta.Holds w) : t.delta.Holds w := by
  have hall : ∀ (rs : List Redo) (t : Tiers), (rs.foldl undoRedo t).delta.Holds w →
      t.delta.Holds w := by
    intro rs
    induction rs with
    | nil => exact fun t ht => ht
    | cons r rs ih =>
      intro t ht
      have hw := ih _ ht
      cases r with
      | insert v => exact Delta.holds_of_removeVersion hw
      | close c => exact hw
      | retract c => exact hw
  exact hall _ _ h

/-! ### The engine -/

/-- What a write puts into the payload of a version. -/
def DmlOp.Stores (validTime : Bool) (stored : Option Bytes) : DmlOp → Prop
  | .insert valid payload _ => framePayload validTime valid payload = .ok stored
  | .update valid payload _ => framePayload validTime valid payload = .ok stored
  | .delete => False

namespace Engine

/-- The engine holds a version: staged, in a live segment or in a segment file. -/
def Contains (e : Engine) (v : Version) : Prop :=
  e.tiers.delta.Holds v ∨ v ∈ e.sealedVersions ∨
    ∃ (i : ℕ) (s : Segment), e.segments[i]? = some s ∧ v ∈ s.versions

/-- From `e` to `e'` the policy stays, and versions come in for which `P` holds. -/
structure Gains (P : Version → Prop) (e e' : Engine) : Prop where
  validTime : e'.writer.validTime = e.writer.validTime
  contains : ∀ v, e'.Contains v → e.Contains v ∨ P v

namespace Gains

variable {P Q : Version → Prop} {e e' e'' : Engine}

theorem refl (e : Engine) : Gains P e e := ⟨rfl, fun _ hv => .inl hv⟩

theorem trans (h : Gains P e e') (h' : Gains P e' e'') : Gains P e e'' where
  validTime := h'.validTime.trans h.validTime
  contains v hv := (h'.contains v hv).elim (fun hv' => h.contains v hv') .inr

theorem weaken (h : Gains P e e') (hPQ : ∀ v, P v → Q v) : Gains Q e e' :=
  ⟨h.validTime, fun v hv => (h.contains v hv).imp_right (hPQ v)⟩

/-- Tiers and log of the writer change, the segments do not. -/
theorem of_tiers (hpolicy : e'.writer.validTime = e.writer.validTime)
    (hsealed : e'.sealedVersions = e.sealedVersions) (hfiles : e'.segments = e.segments)
    (hdelta : ∀ v, e'.tiers.delta.Holds v → e.tiers.delta.Holds v ∨ P v) : Gains P e e' where
  validTime := hpolicy
  contains v hv := by
    rcases hv with hheld | hsealed' | hfile
    · exact (hdelta v hheld).imp_left .inl
    · exact .inl (.inr (.inl (hsealed ▸ hsealed')))
    · exact .inl (.inr (.inr (hfiles ▸ hfile)))

end Gains

variable {P : Version → Prop} {e : Engine}

theorem gains_logAndApply (e : Engine) {dw dw' : DmlWriter} {t' : Tiers}
    {commit : SystemTimeMicros} {redos : List Redo} {r : Except DmlError SystemTimeMicros}
    (h : dw.logAndApply e.tiers commit redos = (dw', t', r))
    (hpolicy : dw.validTime = e.writer.validTime) (hP : ∀ v, .insert v ∈ redos → P v) :
    Gains P e { e with writer := dw', tiers := t' } := by
  have htiers : ∀ b t₁ r₁, applyRedos b e.tiers redos = (t₁, r₁) →
      ∀ v, t₁.delta.Holds v → e.tiers.delta.Holds v ∨ P v := by
    intro b t₁ r₁ ht v hv
    have hheld : (applyRedos b e.tiers redos).1.delta.Holds v := by
      rw [ht]
      exact hv
    exact (holds_applyRedos hheld).imp_right (hP v)
  unfold DmlWriter.logAndApply at h
  rcases hg : dw.group with _ | buffered
  · simp only [hg] at h
    rcases hlog : appendGroupRecord dw.wal none redos with ⟨wal, err | ⟨⟩⟩
    · simp only [hlog] at h
      cases h
      exact .of_tiers hpolicy rfl rfl fun _ hv => .inl hv
    · rcases ht : apply e.tiers redos with ⟨t₁, err | ⟨⟩⟩
      all_goals
        simp only [hlog, ht] at h
        cases h
        exact .of_tiers hpolicy rfl rfl (htiers true t' _ ht)
  · simp only [hg] at h
    -- a bulk load may spill, a transaction stays in memory
    by_cases hbulk : dw.groupBulk = true
    · rcases ht : apply e.tiers redos with ⟨t₁, err | ⟨⟩⟩
      all_goals
        simp only [hbulk, if_true, ht] at h
        cases h
        exact .of_tiers hpolicy rfl rfl (htiers true t' _ ht)
    · rcases ht : applyResident e.tiers redos with ⟨t₁, err | ⟨⟩⟩
      all_goals
        simp only [hbulk, if_false, Bool.false_eq_true, ht] at h
        cases h
        exact .of_tiers hpolicy rfl rfl (htiers false t' _ ht)

/-- The version of a write. -/
def WritesVersion (dw : DmlWrite) (validTime : Bool) (v : Version) : Prop :=
  v.sysFrom = dw.now ∧ dw.now < systemTimeOpen ∧ dw.op.Stores validTime v.payload

/-- A write resolves to a version of its own instant and payload, if to one at all. -/
theorem writes_of_stage {dw : DmlWriter} {t : Tiers} {sv : List Version} {w : DmlWrite}
    {writer : SysTimeWriter} {commit : SystemTimeMicros} {redos : List Redo}
    (h : dw.stage t sv w = (writer, .ok (commit, redos))) {v : Version}
    (hv : .insert v ∈ redos) : WritesVersion w dw.validTime v := by
  have hcommit : ∀ {sw sw' : SysTimeWriter} {c : SystemTimeMicros},
      sw.nextCommitTs w.now = (sw', .ok c) → c = w.now ∧ w.now < systemTimeOpen := by
    intro sw sw' c hc
    unfold SysTimeWriter.nextCommitTs at hc
    split_ifs at hc with hback hend
    · cases hc
    · cases hc
    · cases hc
      exact ⟨rfl, not_le.1 hend⟩
  unfold DmlWriter.stage at h
  rcases hop : w.op with ⟨valid, payload, seq⟩ | ⟨valid, payload, seq⟩ | _
  · simp only [hop] at h
    rcases hframe : framePayload dw.validTime valid payload with e | framed
    · simp only [hframe] at h
      cases h
    simp only [hframe, SysTimeWriter.stageInsert] at h
    rcases hc : dw.writer.nextCommitTs w.now with ⟨sw, e | c⟩
    · simp only [hc] at h
      cases h
    obtain ⟨rfl, hlt⟩ := hcommit hc
    simp only [hc] at h
    split at h
    · cases h
    · cases h
      cases List.mem_singleton.1 hv
      exact ⟨rfl, hlt, by rw [hop]; exact hframe⟩
  · simp only [hop] at h
    rcases hframe : framePayload dw.validTime valid payload with e | framed
    · simp only [hframe] at h
      cases h
    simp only [hframe, SysTimeWriter.stageUpdate] at h
    rcases hc : dw.writer.nextCommitTs w.now with ⟨sw, e | c⟩
    · simp only [hc] at h
      cases h
    obtain ⟨rfl, hlt⟩ := hcommit hc
    simp only [hc] at h
    split at h
    · cases h
    · cases h
      -- the close of the version before it is no insert
      rcases List.mem_cons.1 hv with hclose | hinsert
      · cases hclose
      · cases List.mem_singleton.1 hinsert
        exact ⟨rfl, hlt, by rw [hop]; exact hframe⟩
  · simp only [hop, SysTimeWriter.stageDelete] at h
    rcases hc : dw.writer.nextCommitTs w.now with ⟨sw, e | c⟩
    · simp only [hc] at h
      cases h
    simp only [hc] at h
    split at h
    · cases h
    · cases h
      cases List.mem_singleton.1 hv

theorem gains_write (e : Engine) (w : DmlWrite) :
    Gains (WritesVersion w e.writer.validTime) e (e.write w).1 := by
  unfold write DmlWriter.write
  rcases hs : e.writer.stage e.tiers e.sealedVersions w with ⟨writer, err | ⟨commit, redos⟩⟩
  · exact .of_tiers rfl rfl rfl fun _ hv => .inl hv
  · rcases hl : { e.writer with writer }.logAndApply e.tiers commit redos with ⟨dw, t, r⟩
    simp only [hl]
    exact gains_logAndApply e hl rfl fun v hv => writes_of_stage hs hv

/-! Everything else adds no version. -/

theorem gains_beginGroup (e : Engine) : Gains P e e.beginGroup :=
  .of_tiers rfl rfl rfl fun _ hv => .inl hv

theorem gains_beginBulkGroup (e : Engine) : Gains P e e.beginBulkGroup :=
  .of_tiers rfl rfl rfl fun _ hv => .inl hv

theorem gains_endBulkGroup (e : Engine) : Gains P e e.endBulkGroup :=
  .of_tiers rfl rfl rfl fun _ hv => .inl hv

theorem gains_commitBulkChunk (e : Engine) (txnId : TxnId) :
    Gains P e (e.commitBulkChunk txnId).1 := by
  have hpolicy : (e.writer.commitBulkChunk txnId).1.validTime = e.writer.validTime := by
    unfold DmlWriter.commitBulkChunk
    dsimp only
    split
    · rfl
    split
    · rfl
    split <;> rfl
  exact .of_tiers hpolicy rfl rfl fun _ hv => .inl hv

theorem gains_finishGroup (e : Engine) (txnId : Option TxnId) :
    Gains P e (e.finishGroup txnId).1 := by
  have hfinish : (e.writer.finishGroup e.tiers txnId).1.validTime = e.writer.validTime ∧
      ∀ v, (e.writer.finishGroup e.tiers txnId).2.1.delta.Holds v → e.tiers.delta.Holds v := by
    unfold DmlWriter.finishGroup
    dsimp only
    split
    · exact ⟨rfl, fun v hv => hv⟩
    split
    · exact ⟨rfl, fun v hv => holds_undo hv⟩
    split <;> exact ⟨rfl, fun v hv => hv⟩
  exact .of_tiers hfinish.1 rfl rfl fun v hv => .inl (hfinish.2 v hv)

theorem gains_abortGroup (e : Engine) : Gains P e e.abortGroup := by
  have habort : (e.writer.abortGroup e.tiers).1.validTime = e.writer.validTime ∧
      ∀ v, (e.writer.abortGroup e.tiers).2.delta.Holds v → e.tiers.delta.Holds v := by
    unfold DmlWriter.abortGroup
    dsimp only
    split
    · exact ⟨rfl, fun v hv => absurd hv (Delta.holds_clearStaged _ v)⟩
    split
    · exact ⟨rfl, fun v hv => holds_undo hv⟩
    · exact ⟨rfl, fun v hv => hv⟩
  exact .of_tiers habort.1 rfl rfl fun v hv => .inl (habort.2 v hv)

theorem gains_tick (e : Engine) : Gains P e e.tick.1 := by
  unfold tick
  split <;> exact .of_tiers rfl rfl rfl fun _ hv => .inl hv

theorem gains_store (e : Engine) (p : RecoveryPoint) : Gains P e (e.store p).1 := by
  unfold store
  dsimp only
  split <;> exact .of_tiers rfl rfl rfl fun _ hv => .inl hv

theorem gains_withFaults (e : Engine) (f : TierFaults) : Gains P e (e.withFaults f) :=
  .of_tiers rfl rfl rfl fun _ hv => .inl hv

/-- A segment of versions the engine holds. -/
theorem gains_sealSegment (e : Engine) (idx : ℕ) {s : Segment}
    (hs : ∀ v ∈ s.versions, e.Contains v) : Gains P e (e.sealSegment idx s).1 := by
  have hstays : ∀ {files : SegmentFiles}, (∀ (i : ℕ) (s' : Segment), files[i]? = some s' →
      e.segments[i]? = some s' ∨ s' = s) →
      Gains P e { e with segmentFaults := e.segmentFaults.tail, segments := files } := by
    intro files hfiles
    refine ⟨rfl, fun v hv => .inl ?_⟩
    rcases hv with hheld | hsealed | ⟨i, s', hfile, hv⟩
    · exact .inl hheld
    · exact .inr (.inl hsealed)
    · rcases hfiles i s' hfile with hold | rfl
      · exact .inr (.inr ⟨i, s', hold, hv⟩)
      · exact hs v hv
  unfold sealSegment
  dsimp only
  split
  · refine hstays fun i s' hi => ?_
    rw [OrdMap.getElem?_insert] at hi
    split_ifs at hi with heq
    · exact .inr (Option.some.inj hi).symm
    · exact .inl hi
  · refine hstays fun i s' hi => ?_
    rw [OrdMap.getElem?_erase] at hi
    split_ifs at hi with heq
    exact .inl hi

theorem gains_checkpoint (e : Engine) : Gains P e e.checkpoint.1 := by
  have htick := gains_tick (P := P) e
  unfold checkpoint
  rcases ht : e.tick with ⟨e₁, err | ⟨⟩⟩
  all_goals
    rw [ht] at htick
    dsimp only
  · exact htick
  have hstore := htick.trans (gains_store e₁ ⟨e₁.replayFloor, e₁.writer.wal.durableEnd,
    e₁.liveSegments⟩)
  rcases hs : e₁.store ⟨e₁.replayFloor, e₁.writer.wal.durableEnd, e₁.liveSegments⟩
    with ⟨e₂, err | ⟨⟩⟩
  all_goals
    rw [hs] at hstore
    dsimp only
  · exact hstore
  · exact hstore.trans (.of_tiers rfl rfl rfl fun _ hv => .inl hv)

/-- What is staged moves to a segment. -/
theorem gains_flush (e : Engine) : Gains P e e.flush.1 := by
  have htick := gains_tick (P := P) e
  unfold flush
  rcases ht : e.tick with ⟨e₁, err | ⟨⟩⟩
  all_goals
    rw [ht] at htick
    dsimp only
  · exact htick
  split
  · have hstore := htick.trans (gains_store e₁ ⟨e₁.replayFloor, e₁.writer.wal.durableEnd,
      e₁.liveSegments⟩)
    rcases hs : e₁.store ⟨e₁.replayFloor, e₁.writer.wal.durableEnd, e₁.liveSegments⟩
      with ⟨e₂, err | ⟨⟩⟩
    all_goals
      rw [hs] at hstore
      dsimp only
    · exact hstore
    · exact hstore.trans (.of_tiers rfl rfl rfl fun _ hv => .inl hv)
  have hstaged : ∀ v ∈ e₁.tiers.delta.stagedVersions, e₁.Contains v := fun v hv =>
    .inl (Delta.holds_of_mem_stagedVersions hv)
  have hseal := gains_sealSegment (P := P) e₁ e₁.nextSegmentIndex
    (s := { versions := e₁.tiers.delta.stagedVersions
            retractions := e₁.tiers.delta.stagedRetractions }) hstaged
  rcases hs : e₁.sealSegment e₁.nextSegmentIndex
    { versions := e₁.tiers.delta.stagedVersions
      retractions := e₁.tiers.delta.stagedRetractions } with ⟨e₂, err | ⟨⟩⟩
  all_goals
    rw [hs] at hseal
    dsimp only
  · exact htick.trans hseal
  have hstore := gains_store (P := P) e₂ ⟨e₁.writer.wal.durableEnd, e₁.writer.wal.durableEnd,
    e₂.liveSegments ++ [e₁.nextSegmentIndex]⟩
  rcases hst : e₂.store ⟨e₁.writer.wal.durableEnd, e₁.writer.wal.durableEnd,
    e₂.liveSegments ++ [e₁.nextSegmentIndex]⟩ with ⟨e₃, err | ⟨⟩⟩
  all_goals
    rw [hst] at hstore
    dsimp only
  · exact (htick.trans hseal).trans hstore
  refine htick.trans ⟨(hseal.trans hstore).validTime, fun v hv => ?_⟩
  -- the sealed versions are the old ones and those that were staged
  rcases hv with hheld | hsealed | hfile
  · exact absurd hheld (Delta.holds_clearStaged _ v)
  · rcases List.mem_append.1 hsealed with hold | hnew
    · exact (hseal.trans hstore).contains v (.inr (.inl hold))
    · exact .inl (hstaged v hnew)
  · exact (hseal.trans hstore).contains v (.inr (.inr hfile))

theorem contains_of_readSegments {files : SegmentFiles} {is : List ℕ} {s : Segment}
    (h : readSegments files is = some s) {v : Version} (hv : v ∈ s.versions) :
    ∃ (i : ℕ) (s' : Segment), files[i]? = some s' ∧ v ∈ s'.versions := by
  induction is generalizing s with
  | nil =>
    cases h
    cases hv
  | cons i is ih =>
    rw [readSegments] at h
    obtain ⟨s₁, hs₁, h⟩ := Option.bind_eq_some_iff.1 h
    obtain ⟨rest, hrest, h⟩ := Option.bind_eq_some_iff.1 h
    cases h
    rcases List.mem_append.1 hv with hfirst | hlater
    · exact ⟨i, s₁, (readSegment_eq_some.1 hs₁).1, hfirst⟩
    · exact ih hrest hlater

/-- The live segments are merged into one, and removed. -/
theorem gains_compact (e : Engine) : Gains P e e.compact.1 := by
  unfold compact
  split
  · exact .refl e
  have htick := gains_tick (P := P) e
  rcases ht : e.tick with ⟨e₁, err | ⟨⟩⟩
  all_goals
    rw [ht] at htick
    dsimp only
  · exact htick
  rcases hread : readSegments e₁.segments e₁.liveSegments with _ | merged
  · exact htick
  dsimp only
  have hmerged : ∀ v ∈ (e₁.mergedSegment merged).versions, e₁.Contains v := fun v hv =>
    .inr (.inr (contains_of_readSegments hread (List.mem_mergeSort.1 hv)))
  have hseal := gains_sealSegment (P := P) e₁ e₁.nextSegmentIndex hmerged
  rcases hs : e₁.sealSegment e₁.nextSegmentIndex (e₁.mergedSegment merged) with ⟨e₂, err | ⟨⟩⟩
  all_goals
    rw [hs] at hseal
    dsimp only
  · exact htick.trans hseal
  have hstore := gains_store (P := P) e₂ ⟨e₂.replayFloor, e₁.writer.wal.durableEnd,
    [e₁.nextSegmentIndex]⟩
  rcases hst : e₂.store ⟨e₂.replayFloor, e₁.writer.wal.durableEnd, [e₁.nextSegmentIndex]⟩
    with ⟨e₃, err | ⟨⟩⟩
  all_goals
    rw [hst] at hstore
    dsimp only
  · exact (htick.trans hseal).trans hstore
  refine htick.trans ⟨(hseal.trans hstore).validTime, fun v hv => ?_⟩
  rcases hv with hheld | hsealed | ⟨i, s, hfile, hv⟩
  · exact (hseal.trans hstore).contains v (.inl hheld)
  · exact .inl (hmerged v hsealed)
  · -- what is left of the files was there
    have hleft : ∀ (is : List ℕ) (files : SegmentFiles),
        (is.foldl (fun files i => files.erase i) files)[i]? = some s → files[i]? = some s := by
      intro is
      induction is with
      | nil => exact fun files hi => hi
      | cons j js ih =>
        intro files hi
        have hone := ih _ hi
        rw [OrdMap.getElem?_erase] at hone
        split_ifs at hone with hj
        exact hone
    exact (hseal.trans hstore).contains v (.inr (.inr ⟨i, s, hleft _ _ hfile, hv⟩))

/-! ### Reads -/

/-- A read finds a version that the engine holds, with an end or without. -/
theorem contains_asOf {key : BusinessKey} {snapshot : SystemTimeMicros} {v : Version}
    (h : e.asOf key snapshot = some v) : ∃ raw, e.Contains raw ∧ raw.sysFrom = v.sysFrom ∧
      raw.payload = v.payload ∧ v.sysFrom ≤ snapshot := by
  obtain ⟨hmem, hle, -, -⟩ := liveInChain_eq_some.1 h
  rw [resolvedChain, overlayChain, KeyedMap.mem_mapValues] at hmem
  obtain ⟨raw, hraw, rfl⟩ := hmem
  refine ⟨raw, ?_, (Version.stamp_sysFrom ..).symm, (Version.stamp_payload ..).symm, hle⟩
  rcases KeyedMap.mem_insertAll_subset hraw with hsealed | hstaged
  · exact .inr (.inl (List.mem_filter.1 (KeyedMap.mem_of_mem_ofList hsealed)).1)
  · exact .inl (Delta.mem_candidateVersions.1 (List.mem_filter.1 hstaged).1).1

end Engine

end SteleDb
