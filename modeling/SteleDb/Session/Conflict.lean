import SteleDb.Session.Txn

/-!
# First committer wins

A transaction that commits has overwritten nothing it did not see: since the snapshot a write was
staged under, no one else has committed a write to its row.  The server finds out from the write
index, which is pruned, so the proof is about what a prune may forget.

* `SessionEngine.Noted s s' stamps` : what any statement does to the write index, the clock and the
  leases;
* `Server.Tracked` : the index still has, for every open transaction, each row that was written
  after its snapshot or after the anchor of a staged write;
* `no_lost_update` : the property over whole runs.

A prune keeps what is not older than the oldest lease.  It therefore keeps what a *snapshot* needs.
The anchors of a transaction can be older than its lease, when it has moved on to a new snapshot
since; the property holds as long as no prune forgets a write between the two
(`Server.PruneKeeps`), and fails without it (`lost_update_of_repin`).
-/

namespace SteleDb

namespace SessionEngine

variable {s s' s'' : SessionEngine}

/-! ### What a statement does to the index -/

/-- No entry of the index is later than the clock. -/
def IndexBounded (s : SessionEngine) : Prop :=
  ∀ (row : RowId) (i : SystemTimeMicros), s.writeIndex[row]? = some i → i ≤ s.clock.highWater

/-- Some lease is not later than `i`. -/
def Leased (s : SessionEngine) (i : SystemTimeMicros) : Prop := ∃ x ∈ s.openSnapshots, x ≤ i

/-- From `s` to `s'` the rows of `stamps` were written; the index has them, and whatever a lease
covered before. -/
structure Noted (s s' : SessionEngine) (stamps : List (RowId × SystemTimeMicros)) : Prop where
  clock : s.clock.highWater ≤ s'.clock.highWater
  snapshots : s'.openSnapshots = s.openSnapshots
  bounded : s'.IndexBounded
  kept : ∀ (row : RowId) (i : SystemTimeMicros), s.writeIndex[row]? = some i → s.Leased i →
    ∃ j, s'.writeIndex[row]? = some j ∧ i ≤ j
  stamped : ∀ e ∈ stamps, s.clock.highWater ≤ e.2 ∧ e.2 ≤ s'.clock.highWater ∧
    (s.Leased e.2 → ∃ j, s'.writeIndex[e.1]? = some j ∧ e.2 ≤ j)

namespace Noted

variable {l l' : List (RowId × SystemTimeMicros)}

/-- A step that leaves index and leases alone. -/
theorem quiet (hb : s.IndexBounded) (hc : s.clock.highWater ≤ s'.clock.highWater)
    (hs : s'.openSnapshots = s.openSnapshots) (hi : s'.writeIndex = s.writeIndex) :
    Noted s s' [] where
  clock := hc
  snapshots := hs
  bounded row i h := (hb row i (hi ▸ h)).trans hc
  kept _ i h _ := ⟨i, hi ▸ h, le_rfl⟩
  stamped _ he := nomatch he

theorem refl (hb : s.IndexBounded) : Noted s s [] := quiet hb le_rfl rfl rfl

theorem trans (h : Noted s s' l) (h' : Noted s' s'' l') : Noted s s'' (l ++ l') where
  clock := h.clock.trans h'.clock
  snapshots := h'.snapshots.trans h.snapshots
  bounded := h'.bounded
  kept row i hi hl := by
    obtain ⟨j, hj, hij⟩ := h.kept row i hi hl
    obtain ⟨x, hx, hxi⟩ := hl
    obtain ⟨j', hj', hjj'⟩ := h'.kept row j hj ⟨x, h.snapshots ▸ hx, hxi.trans hij⟩
    exact ⟨j', hj', hij.trans hjj'⟩
  stamped e he := by
    rcases List.mem_append.1 he with he | he
    · obtain ⟨hle, hle', hidx⟩ := h.stamped e he
      refine ⟨hle, hle'.trans h'.clock, fun hl => ?_⟩
      obtain ⟨j, hj, hej⟩ := hidx hl
      obtain ⟨x, hx, hxe⟩ := hl
      obtain ⟨j', hj', hjj'⟩ := h'.kept e.1 j hj ⟨x, h.snapshots ▸ hx, hxe.trans hej⟩
      exact ⟨j', hj', hej.trans hjj'⟩
    · obtain ⟨hle, hle', hidx⟩ := h'.stamped e he
      refine ⟨h.clock.trans hle, hle', fun ⟨x, hx, hxe⟩ => ?_⟩
      exact hidx ⟨x, h.snapshots ▸ hx, hxe⟩

/-- Steps before and after that write nothing. -/
theorem andThen (h : Noted s s' l) (h' : Noted s' s'' []) : Noted s s'' l := by
  simpa using h.trans h'

theorem sublist (h : Noted s s' l) (hl : l' ⊆ l) : Noted s s' l' :=
  { h with stamped := fun e he => h.stamped e (hl he) }

/-- Without a lease less is kept. -/
theorem dropLease (h : Noted s s' l) (txn : SessionTransaction) :
    Noted (s.dropLease txn) (s'.dropLease txn) l where
  clock := h.clock
  snapshots := congrArg (Multiset.erase · txn.snapshot) h.snapshots
  bounded := h.bounded
  kept row i hi hl := h.kept row i hi (hl.imp fun _ hx => ⟨Multiset.mem_of_mem_erase hx.1, hx.2⟩)
  stamped e he := by
    obtain ⟨hle, hle', hidx⟩ := h.stamped e he
    exact ⟨hle, hle', fun hl => hidx (hl.imp fun _ hx => ⟨Multiset.mem_of_mem_erase hx.1, hx.2⟩)⟩

end Noted

/-! ### Frames -/

/-- `s'` has the index, the leases and the clock of `s`, or a later one. -/
structure Quiet (s s' : SessionEngine) : Prop where
  clock : s.clock.highWater ≤ s'.clock.highWater
  snapshots : s'.openSnapshots = s.openSnapshots
  index : s'.writeIndex = s.writeIndex

namespace Quiet

theorem refl (s : SessionEngine) : Quiet s s := ⟨le_rfl, rfl, rfl⟩

theorem trans (h : Quiet s s') (h' : Quiet s' s'') : Quiet s s'' :=
  ⟨h.clock.trans h'.clock, h'.snapshots.trans h.snapshots, h'.index.trans h.index⟩

theorem noted (h : Quiet s s') (hb : s.IndexBounded) : Noted s s' [] :=
  .quiet hb h.clock h.snapshots h.index

end Quiet

theorem quiet_setEngine (s : SessionEngine) (table : Name) (st : TableState) (e : Engine) :
    Quiet s (s.setEngine table st e) := ⟨le_rfl, rfl, rfl⟩

theorem quiet_takeTxnId (s : SessionEngine) : Quiet s s.takeTxnId := ⟨le_rfl, rfl, rfl⟩

theorem quiet_observe (s : SessionEngine) : Quiet s s.observe :=
  ⟨(s.clock.le_observe).trans_eq (s.clock.highWater_observe).symm, rfl, rfl⟩

theorem quiet_tick (s : SessionEngine) : Quiet s s.tick := ⟨s.clock.le_now, rfl, rfl⟩

theorem quiet_abortGroup (s : SessionEngine) (table : Name) : Quiet s (s.abortGroup table) := by
  unfold abortGroup
  split
  · exact .refl s
  · exact quiet_setEngine ..

theorem quiet_abortGroups (s : SessionEngine) (touched : List Name) :
    Quiet s (s.abortGroups touched) := by
  induction touched generalizing s with
  | nil => exact .refl s
  | cons t ts ih => exact (quiet_abortGroup s t).trans (ih _)

theorem quiet_write (s : SessionEngine) (table : Name) (key : BusinessKey) (op : DmlOp)
    (txnId : TxnId) (principal : Bytes) : Quiet s (s.write table key op txnId principal).1 := by
  unfold write
  split
  · exact .refl s
  split
  · exact .refl s
  split
  · exact .refl s
  rename_i st _
  have hclock : Quiet s (if op.readsClock st.engine.writer.validTime then s.tick else s) := by
    split
    · exact quiet_tick s
    · exact .refl s
  dsimp only
  split <;> exact hclock.trans (quiet_setEngine ..)

theorem quiet_touch {touched touched' : List Name} {table : Name}
    (h : s.touch touched table = .ok (s', touched')) : Quiet s s' := by
  unfold touch at h
  split at h
  · cases h; exact .refl s
  · split at h
    · cases h
    · cases h; exact quiet_setEngine ..

theorem quiet_commitLeg (s : SessionEngine) (txnId : TxnId) (table : Name) :
    Quiet s (s.commitLeg txnId table).1 := by
  unfold commitLeg
  split
  · exact .refl s
  split <;> exact quiet_setEngine ..

theorem quiet_commitLegs (txnId : TxnId) (s : SessionEngine) (tables : List Name) :
    Quiet s (commitLegs txnId s tables).1 := by
  induction tables generalizing s with
  | nil => exact .refl s
  | cons t ts ih =>
    have hleg := quiet_commitLeg s txnId t
    unfold commitLegs
    split <;> rename_i h <;> rw [h] at hleg
    · exact hleg.trans (ih _)
    · exact hleg.trans (quiet_abortGroups ..)

theorem quiet_recordCommit (s : SessionEngine) (txnId : TxnId) :
    Quiet s (s.recordCommit txnId).1 := by
  unfold recordCommit
  split <;> exact ⟨le_rfl, rfl, rfl⟩

theorem quiet_finishGroupCommit (s : SessionEngine) (txnId : TxnId) (touched : List Name) :
    Quiet s (s.finishGroupCommit txnId touched).1 := by
  unfold finishGroupCommit
  split
  · exact .refl s
  have hlegs := quiet_commitLegs txnId s touched
  split <;> rename_i h <;> rw [h] at hlegs
  · exact hlegs
  · exact hlegs.trans (quiet_recordCommit ..)

theorem quiet_commitBulkChunk (s : SessionEngine) (txnId : TxnId) (table : Name) :
    Quiet s (s.commitBulkChunk txnId table).1 := by
  unfold commitBulkChunk
  split
  · exact .refl s
  split <;> exact quiet_setEngine ..

theorem quiet_forTables (f : Engine → Engine × Except EngineError Unit) (s : SessionEngine)
    (tables : List Name) : Quiet s (forTables f s tables).1 := by
  induction tables generalizing s with
  | nil => exact .refl s
  | cons t ts ih =>
    unfold forTables
    split
    · exact ih s
    split
    · exact quiet_setEngine ..
    · exact (quiet_setEngine ..).trans (ih _)

theorem quiet_logDdl (s : SessionEngine) (record : CatalogRecord) :
    Quiet s (s.logDdl record).1 := by
  unfold logDdl
  split
  · exact .refl s
  split <;> exact ⟨le_rfl, rfl, rfl⟩

theorem quiet_applyCreateTable (s : SessionEngine) (at_ : SystemTimeMicros) (name : Name)
    (columns : List ColumnDef) (validTime : Option ValidTimeSpec) :
    Quiet s (s.applyCreateTable at_ name columns validTime).1 := by
  unfold applyCreateTable
  split
  · exact .refl s
  rename_i s₁ tier htier
  have htier : Quiet s s₁ := by
    unfold tierFor at htier
    split at htier
    · split at htier <;> cases htier
      exact .refl s
    · cases htier
      exact ⟨le_rfl, rfl, rfl⟩
  split
  · exact htier
  have hlog := htier.trans (quiet_logDdl s₁
    (.createTable at_ tier.ns name columns validTime (some s₁.currentRole)))
  split <;> rename_i h <;> rw [h] at hlog
  · exact hlog
  · exact hlog.trans ⟨le_rfl, rfl, rfl⟩

theorem quiet_closeRows (s : SessionEngine) (name : Name) (st : TableState) (e : Engine)
    {clock : MonotonicClock} (hclock : s.clock.highWater ≤ clock.highWater) :
    Quiet s (s.closeRows name st e clock) :=
  ⟨hclock, rfl, rfl⟩

theorem quiet_applyDropTable (s : SessionEngine) (at_ : SystemTimeMicros) (name : Name)
    (ifExists : Bool) : Quiet s (s.applyDropTable at_ name ifExists).1 := by
  have hlog := quiet_logDdl s (.dropTable at_ name)
  rcases s.applyDropTable_cases at_ name ifExists with ⟨r, h, -⟩ |
    ⟨catalog, id, s₁, -, ⟨e, hl, h⟩ | ⟨hl, ⟨-, h⟩ | ⟨st, e, clock, -, -, -, hclock, r, h⟩⟩⟩
  · rw [h]
    exact .refl s
  all_goals rw [h]; rw [hl] at hlog
  · exact hlog
  · exact hlog.trans ⟨le_rfl, rfl, rfl⟩
  · have hdropped : Quiet s₁ { s₁ with catalog } := ⟨le_rfl, rfl, rfl⟩
    exact hlog.trans (hdropped.trans (quiet_closeRows _ name st e hclock))

theorem quiet_applyCreateIndex (s : SessionEngine) (at_ : SystemTimeMicros) (name table : Name)
    (kind : IndexKind) (columns : List Name) (built : Bool) :
    Quiet s (s.applyCreateIndex at_ name table kind columns built).1 := by
  unfold applyCreateIndex
  split
  · exact .refl s
  split
  · exact .refl s
  split_ifs
  · exact .refl s
  · exact .refl s
  · exact .refl s
  have hlog := quiet_logDdl s (.createIndex at_ name table kind columns)
  split <;> rename_i h <;> rw [h] at hlog
  · exact hlog
  · exact hlog.trans ⟨le_rfl, rfl, rfl⟩

theorem quiet_applyDropIndex (s : SessionEngine) (at_ : SystemTimeMicros) (name : Name)
    (ifExists : Bool) : Quiet s (s.applyDropIndex at_ name ifExists).1 := by
  unfold applyDropIndex
  split
  · exact .refl s
  · exact .refl s
  have hlog := quiet_logDdl s (.dropIndex at_ name)
  split <;> rename_i h <;> rw [h] at hlog
  · exact hlog
  · exact hlog.trans ⟨le_rfl, rfl, rfl⟩

theorem quiet_applyUserDdl (s : SessionEngine) (at_ : SystemTimeMicros) (ddl : DdlStatement) :
    Quiet s (s.applyUserDdl at_ ddl).1 := by
  -- what follows a logged statement changes roles and grants only
  have hlog : ∀ record s₁ r, s.logDdl record = (s₁, r) → Quiet s s₁ := fun record s₁ r h => by
    have := quiet_logDdl s record
    rwa [h] at this
  unfold applyUserDdl
  split
  · split
    · exact .refl s
    split
    · exact .refl s
    split <;> rename_i h
    · exact hlog _ _ _ h
    · exact (hlog _ _ _ h).trans ⟨le_rfl, rfl, rfl⟩
  · split
    · exact .refl s
    split
    · exact .refl s
    split <;> rename_i h
    · exact hlog _ _ _ h
    · exact (hlog _ _ _ h).trans ⟨le_rfl, rfl, rfl⟩
  · split
    · exact .refl s
    split
    · exact .refl s
    split <;> rename_i h
    · exact hlog _ _ _ h
    · exact (hlog _ _ _ h).trans ⟨le_rfl, rfl, rfl⟩
  · exact .refl s

theorem quiet_applyGrantDdl (s : SessionEngine) (table : Name) (grantee : Grantee)
    (record : CatalogRecord) (change : AccessControl → AccessControl) :
    Quiet s (s.applyGrantDdl table grantee record change).1 := by
  unfold applyGrantDdl
  split
  · exact .refl s
  have hlog := quiet_logDdl s record
  split <;> rename_i h <;> rw [h] at hlog
  · exact hlog
  · exact hlog.trans ⟨le_rfl, rfl, rfl⟩

/-- Commands write no rows of their own. -/
theorem quiet_applyCommand (s : SessionEngine) (c : Command) : Quiet s (s.applyCommand c).1 := by
  unfold applyCommand
  split
  · exact .refl s
  cases c with
  | ddl stmt =>
    dsimp only
    unfold applyDdl
    split
    · exact .refl s
    refine (quiet_tick s).trans ?_
    cases stmt with
    | createTable name columns validTime => exact quiet_applyCreateTable ..
    | dropTable name ifExists => exact quiet_applyDropTable ..
    | createIndex name table kind columns built => exact quiet_applyCreateIndex ..
    | dropIndex name ifExists => exact quiet_applyDropIndex ..
    | createUser name verifier superuser => exact quiet_applyUserDdl ..
    | alterUserPassword name verifier => exact quiet_applyUserDdl ..
    | dropUser name ifExists => exact quiet_applyUserDdl ..
    | grant table grantee privileges => exact quiet_applyGrantDdl ..
    | revoke table grantee privileges => exact quiet_applyGrantDdl ..
  | admin cmd =>
    dsimp only
    split
    · exact .refl s
    cases cmd <;> exact quiet_forTables ..

theorem quiet_withFaults (s : SessionEngine) (f : DiskFaults) : Quiet s (s.withFaults f) :=
  ⟨le_rfl, rfl, rfl⟩

/-! ### Writes -/

/-- A write is noted at its own instant. -/
theorem noted_applyBoundDml (hb : s.IndexBounded) {dml : BoundDml} {txnId : TxnId}
    {principal : Bytes} (h : s.applyBoundDml dml txnId principal = (s', .ok ())) :
    Noted s s' [(dml.row, s'.clock.current)] := by
  obtain ⟨op, s₁, -, hs₁, rfl⟩ := applyBoundDml_ok h
  have hw := quiet_write s dml.table dml.key op txnId principal
  rw [hs₁] at hw
  have hidx : ∀ row : RowId, (s₁.writeIndex.insert dml.row s₁.clock.current)[row]? =
      if dml.row = row then some s₁.clock.current else s.writeIndex[row]? := fun row => by
    rw [OrdMap.getElem?_insert, hw.index]
    congr
  refine ⟨hw.clock, hw.snapshots, fun row i hi => ?_, fun row i hi _ => ?_, fun e he => ?_⟩
  · rw [hidx] at hi
    split at hi
    · cases hi; exact le_rfl
    · exact (hb row i hi).trans hw.clock
  · by_cases hrow : dml.row = row
    · exact ⟨s₁.clock.current, by rw [hidx, if_pos hrow], (hb row i hi).trans hw.clock⟩
    · exact ⟨i, by rw [hidx, if_neg hrow, hi], le_rfl⟩
  · cases List.mem_singleton.1 he
    exact ⟨hw.clock, le_rfl, fun _ => ⟨_, by rw [hidx, if_pos rfl], le_rfl⟩⟩

/-- A refused write leaves the index alone. -/
theorem quiet_applyBoundDml {dml : BoundDml} {txnId : TxnId} {principal : Bytes}
    {e : SessionError} (h : s.applyBoundDml dml txnId principal = (s', .error e)) :
    Quiet s s' := by
  rcases applyBoundDml_error h with rfl | ⟨op, -, hs'⟩
  · exact .refl s'
  · have hw := quiet_write s dml.table dml.key op txnId principal
    rwa [hs'] at hw

theorem noted_applyGroup (txnId : TxnId) (principal : Bytes) {touched : List Name}
    {dmls : List BoundDml} (hb : s.IndexBounded) :
    Noted s (applyGroup txnId principal s touched dmls).1
      (groupStamps txnId principal s touched dmls) := by
  induction dmls generalizing s touched with
  | nil => exact .refl hb
  | cons dml dmls ih =>
    rw [applyGroup, groupStamps]
    rcases htouch : s.touch touched dml.table with e | ⟨s₁, touched₁⟩
    · exact .refl hb
    have h₁ := (quiet_touch htouch).noted hb
    dsimp only
    rcases h : s₁.applyBoundDml dml txnId principal with ⟨s₂, e | _⟩
    · exact h₁.trans ((quiet_applyBoundDml h).noted h₁.bounded)
    · have h₂ := noted_applyBoundDml h₁.bounded h
      exact h₁.trans (h₂.trans (ih h₂.bounded))

theorem noted_applyAll (txnId : TxnId) (principal : Bytes) (dmls : List BoundDml)
    (hb : s.IndexBounded) :
    Noted s (applyAll txnId principal s dmls).1 (allStamps txnId principal s dmls) := by
  induction dmls generalizing s with
  | nil => exact .refl hb
  | cons dml dmls ih =>
    rw [applyAll, allStamps]
    rcases h : s.applyBoundDml dml txnId principal with ⟨s₁, e | _⟩
    · exact (quiet_applyBoundDml h).noted hb
    · have h₁ := noted_applyBoundDml hb h
      exact h₁.trans (ih h₁.bounded)

/-- A group notes its writes, also when it is taken back afterwards. -/
theorem noted_runGroup (hb : s.IndexBounded) (dmls : List BoundDml) :
    Noted s (s.runGroup dmls).1 (s.runGroupStamps dmls) := by
  have hstart := (quiet_takeTxnId s).noted hb
  have h : Noted s _ (s.runGroupStamps dmls) :=
    hstart.trans (noted_applyGroup s.nextTxn s.writePrincipal hstart.bounded)
  unfold runGroup
  split <;> rename_i hg <;> rw [hg] at h
  · exact h.andThen ((quiet_finishGroupCommit ..).noted h.bounded)
  · exact h.andThen ((quiet_abortGroups ..).noted h.bounded)

/-! ### Pruning -/

theorem oldestLiveSnapshot_eq_none (h : s.oldestLiveSnapshot = none) : s.openSnapshots = 0 := by
  have hnil := List.head?_eq_none_iff.1 h
  rw [← Multiset.sort_eq s.openSnapshots (· ≤ ·), hnil]
  rfl

theorem oldestLiveSnapshot_le {floor : SystemTimeMicros} (h : s.oldestLiveSnapshot = some floor) :
    ∀ x ∈ s.openSnapshots, floor ≤ x := by
  intro x hx
  have hsorted := s.openSnapshots.pairwise_sort (· ≤ ·)
  rw [← Multiset.mem_sort (· ≤ ·)] at hx
  obtain ⟨l, hl⟩ := List.head?_eq_some_iff.1 h
  rw [hl] at hx hsorted
  rcases List.mem_cons.1 hx with rfl | hx
  · exact le_rfl
  · exact List.rel_of_pairwise_cons hsorted hx

/-- A prune forgets nothing that a lease covers. -/
theorem noted_pruneWriteIndex (hb : s.IndexBounded) : Noted s s.pruneWriteIndex [] := by
  unfold pruneWriteIndex
  split
  · rename_i hnone
    have hzero := oldestLiveSnapshot_eq_none hnone
    refine ⟨le_rfl, rfl, fun row i hi => ?_, fun row i _ hl => ?_, fun e he => nomatch he⟩
    · simp at hi
    · obtain ⟨x, hx, -⟩ := hl
      rw [hzero] at hx
      exact absurd hx (Multiset.notMem_zero x)
  · rename_i floor hfloor
    split
    · refine ⟨le_rfl, rfl, fun row i hi => ?_, fun row i hi hl => ?_, fun e he => nomatch he⟩
      · rw [OrdMap.getElem?_filter] at hi
        exact hb row i (Option.filter_eq_some_iff.1 hi).1
      · obtain ⟨x, hx, hxi⟩ := hl
        refine ⟨i, ?_, le_rfl⟩
        rw [OrdMap.getElem?_filter, hi]
        have hle := (oldestLiveSnapshot_le hfloor x hx).trans hxi
        simp [hle]
    · exact .refl hb

/-! ### Statements -/

variable {stmt : DmlStatement}

/-- What a statement leaves noted: its writes, if it succeeds. -/
theorem noted_executeDml (hb : s.IndexBounded) (stmt : DmlStatement) :
    Noted s (s.executeDml stmt).1 (Server.logged [] (s.executeDml stmt).2
      (s.observe.runGroupStamps stmt.writes)) := by
  have h₀ := (quiet_observe s).noted hb
  unfold executeDml
  split
  · exact h₀
  split
  · exact h₀
  have hrun := noted_runGroup h₀.bounded stmt.writes
  cases stmt with
  | point dml =>
    simp only [applyDml, DmlStatement.writes] at hrun ⊢
    rcases hg : s.observe.runGroup [dml] with ⟨s₁, e | _⟩ <;> rw [hg] at hrun
    · exact h₀.trans (hrun.sublist (List.nil_subset _))
    · exact h₀.trans (hrun.andThen (noted_pruneWriteIndex hrun.bounded))
  | rows dmls =>
    simp only [applyWriteGroup, DmlStatement.writes] at hrun ⊢
    split
    · rename_i hnil
      subst hnil
      exact h₀
    have hpruned := hrun.andThen (noted_pruneWriteIndex hrun.bounded)
    rcases hg : s.observe.runGroup dmls with ⟨s₁, e | _⟩ <;> rw [hg] at hpruned
    · exact h₀.trans (hpruned.sublist (List.nil_subset _))
    · exact h₀.trans hpruned

theorem noted_bulkCopyChunks (txnId : TxnId) (principal : Bytes) (table : Name)
    (chunks : List (List (Option CopyRow))) (hb : s.IndexBounded) :
    ∃ l ⊆ chunkStamps txnId principal table s chunks,
      Noted s (bulkCopyChunks txnId principal table s chunks).1 l ∧
      ((bulkCopyChunks txnId principal table s chunks).2 = .ok () →
        l = chunkStamps txnId principal table s chunks) := by
  induction chunks generalizing s with
  | nil => exact ⟨[], List.nil_subset _, .refl hb, fun _ => rfl⟩
  | cons chunk chunks ih =>
    rw [bulkCopyChunks, chunkStamps]
    rcases chunk.mapM fun row => row with _ | rows
    · exact ⟨[], List.nil_subset _, .refl hb, fun h => nomatch h⟩
    have h₁ := noted_applyAll txnId principal (rows.map (CopyRow.dml table)) hb
    dsimp only
    rcases ha : applyAll txnId principal s (rows.map (CopyRow.dml table)) with ⟨s₁, e | _⟩ <;>
      rw [ha] at h₁
    · exact ⟨_, List.subset_append_left _ _, h₁, fun h => nomatch h⟩
    have h₂ := h₁.andThen ((quiet_commitBulkChunk s₁ txnId table).noted h₁.bounded)
    dsimp only
    rcases hc : s₁.commitBulkChunk txnId table with ⟨s₂, e | _⟩ <;> rw [hc] at h₂
    · exact ⟨_, List.subset_append_left _ _, h₂, fun h => nomatch h⟩
    have h₃ := h₂.andThen (noted_pruneWriteIndex h₂.bounded)
    obtain ⟨l, hl, hn, hok⟩ := ih h₃.bounded
    exact ⟨_, List.append_subset.2 ⟨List.subset_append_left _ _,
      List.Subset.trans hl (List.subset_append_right _ _)⟩, h₃.trans hn, fun h => by rw [hok h]⟩

theorem noted_bulkCopyApply (hb : s.IndexBounded) (table : Name) (rows : List (Option CopyRow)) :
    Noted s (s.bulkCopyApply table rows).1
      (Server.logged [] (s.bulkCopyApply table rows).2 (s.bulkCopyStamps table rows)) := by
  unfold bulkCopyApply bulkCopyStamps
  rcases s.tableMut table with e | st
  · exact .refl hb
  dsimp only
  rcases st.engine.flush with ⟨e, err | _⟩
  · exact (quiet_setEngine ..).noted hb
  have h₁ := ((quiet_setEngine s table st e.beginBulkGroup).trans (quiet_takeTxnId _)).noted hb
  obtain ⟨l, -, hn, hok⟩ := noted_bulkCopyChunks s.nextTxn s.writePrincipal table
    (rows.toChunks bulkCopyChunkRows) h₁.bounded
  have h₂ := h₁.trans hn
  dsimp only
  rcases hc : bulkCopyChunks s.nextTxn s.writePrincipal table
    (s.setEngine table st e.beginBulkGroup).takeTxnId (rows.toChunks bulkCopyChunkRows) with
    ⟨s₂, err | _⟩ <;> rw [hc] at h₂ hok
  · have h₃ := h₂.andThen ((quiet_abortGroup s₂ table).noted h₂.bounded)
    exact (h₃.andThen (noted_pruneWriteIndex h₃.bounded)).sublist (List.nil_subset _)
  rw [← hok rfl]
  dsimp only
  rcases s₂.tableMut table with err | st₂
  · exact h₂.sublist (List.nil_subset _)
  have h₃ := h₂.andThen (((quiet_setEngine s₂ table st₂ st₂.engine.endBulkGroup).trans
    (quiet_recordCommit _ s.nextTxn)).noted h₂.bounded)
  dsimp only
  rcases hr : (s₂.setEngine table st₂ st₂.engine.endBulkGroup).recordCommit s.nextTxn with
    ⟨s₃, err | _⟩ <;> rw [hr] at h₃
  · exact h₃.sublist (List.nil_subset _)
  · exact h₃.andThen (noted_pruneWriteIndex h₃.bounded)

theorem noted_copyApply (hb : s.IndexBounded) (table : Name) (rows : List (Option CopyRow)) :
    Noted s (s.copyApply table rows).1
      (Server.logged [] (s.copyApply table rows).2 (s.copyStamps table rows)) := by
  unfold copyApply copyStamps
  rcases s.refuseIfCommitPoisoned with e | _
  · exact .refl hb
  rcases s.authorizeCopy table with e | _
  · exact .refl hb
  have h₀ := (quiet_observe s).noted hb
  dsimp only
  split
  · exact h₀
  split
  · rcases rows.mapM fun row => row with _ | rows
    · exact h₀
    dsimp only
    unfold applyWriteGroup
    split
    · rename_i hnil
      rw [hnil]
      exact h₀
    have hrun := noted_runGroup h₀.bounded (rows.map (CopyRow.dml table))
    have hpruned := h₀.trans (hrun.andThen (noted_pruneWriteIndex hrun.bounded))
    rcases hg : s.observe.runGroup (rows.map (CopyRow.dml table)) with ⟨s₁, e | _⟩ <;>
      rw [hg] at hpruned
    · exact hpruned.sublist (List.nil_subset _)
    · exact hpruned
  · exact h₀.trans (noted_bulkCopyApply h₀.bounded table rows)

/-- Before its first statement a session has no write index and no lease. -/
def Started (s : SessionEngine) : Prop := s.writeIndex = ∅ ∧ s.openSnapshots = 0

theorem started_opened (inner : ℕ → SystemTimeMicros) : (opened inner).Started := ⟨rfl, rfl⟩

theorem Started.quiet (h : s.Started) (hq : Quiet s s') : s'.Started :=
  ⟨hq.index.trans h.1, hq.snapshots.trans h.2⟩

theorem started_closeDroppedEras (now : SystemTimeMicros)
    (drops : List (Name × SystemTimeMicros)) (h : s.Started) :
    (closeDroppedEras now s drops).1.Started := by
  induction drops generalizing s with
  | nil => exact h
  | cons d drops ih =>
    obtain ⟨name, dropAt⟩ := d
    rcases closeDroppedEras_cons now s name dropAt drops with
      heq | ⟨st, e, clock, ⟨r, heq⟩ | ⟨nextTxn, heq⟩⟩
    · rw [heq]
      exact ih h
    · rw [heq]
      exact h
    · rw [heq]
      exact ih h

theorem started_reopen {disk : SessionDisk} {inner : ℕ → SystemTimeMicros}
    {drops : OrdMap Name SystemTimeMicros} (h : reopen disk inner = .ok (s, drops)) :
    s.Started := by
  unfold reopen at h
  dsimp only at h
  split at h
  · cases h
  · split at h
    · cases h
    · cases h
      exact ⟨rfl, rfl⟩

/-- A recovered session, too. -/
theorem started_recover {disk : SessionDisk} {inner : ℕ → SystemTimeMicros} {faults : DiskFaults}
    {r : Except SessionError Unit} (h : recover disk inner faults = .ok (s, r)) : s.Started := by
  unfold recover at h
  split at h
  · cases h
  · next s₀ drops hr =>
    have hs := started_closeDroppedEras s₀.clock.current drops.toList
      ((started_reopen hr).quiet (quiet_withFaults s₀ faults))
    rwa [Except.ok.inj h] at hs

end SessionEngine

/-! ### The server -/

namespace Server

variable {w : Server}

/-- The index has an entry of the row after `a`, if the row was written after `a`. -/
def Remembers (w : Server) (row : RowId) (a : SystemTimeMicros) : Prop :=
  ∀ i, (row, i) ∈ w.log → a < i → ∃ j, w.engine.writeIndex[row]? = some j ∧ a < j

/-- The state of leases, index and log in every run. -/
structure Tracked (w : Server) : Prop where
  bounded : w.engine.IndexBounded
  leases : w.engine.openSnapshots = (w.txns.map SessionTransaction.snapshot : Multiset _)
  snapshots : ∀ txn ∈ w.txns, txn.snapshot ≤ w.engine.clock.highWater
  logged : ∀ e ∈ w.log, e.2 ≤ w.engine.clock.highWater
  read : ∀ txn ∈ w.txns, ∀ row, w.Remembers row txn.snapshot
  staged : ∀ txn ∈ w.txns, ∀ p ∈ txn.staged, w.Remembers p.1.row p.2

/-- A prune that leaves the transactions `stay` open keeps every entry that one of them needs for a
staged write: none of these is older than the oldest lease. -/
def PruneKeeps (w : Server) (stay : List SessionTransaction) : Prop :=
  ∀ txn ∈ stay, ∀ p ∈ txn.staged, ∀ i, w.engine.writeIndex[p.1.row]? = some i → p.2 < i →
    ∃ other ∈ stay, other.snapshot ≤ i

instance (w : Server) (stay : List SessionTransaction) : Decidable (w.PruneKeeps stay) :=
  decidable_of_iff (∀ txn ∈ stay, ∀ p ∈ txn.staged,
    (w.engine.writeIndex[p.1.row]?).all fun i =>
      decide (p.2 < i → ∃ other ∈ stay, other.snapshot ≤ i)) (by
    simp only [PruneKeeps, Option.all_eq_true, decide_eq_true_eq])

theorem logged_eq (log : List (RowId × SystemTimeMicros)) (r : Except SessionError Unit)
    (stamps : List (RowId × SystemTimeMicros)) :
    Server.logged log r stamps = log ++ Server.logged [] r stamps := by
  cases r <;> simp [Server.logged]

namespace Tracked

variable {txn txn' : SessionTransaction} {i : ℕ}

theorem started {s : SessionEngine} (h : s.Started) : Tracked ⟨s, [], []⟩ where
  bounded row i hi := by simp [h.1] at hi
  leases := h.2
  snapshots _ ht := nomatch ht
  logged _ he := nomatch he
  read _ ht := nomatch ht
  staged _ ht := nomatch ht

/-- A step that writes nothing. -/
theorem quiet (h : w.Tracked) {s' : SessionEngine} (hq : SessionEngine.Quiet w.engine s') :
    Tracked { w with engine := s' } where
  bounded row j hj := (h.bounded row j (hq.index ▸ hj)).trans hq.clock
  leases := hq.snapshots.trans h.leases
  snapshots t ht := (h.snapshots t ht).trans hq.clock
  logged e he := (h.logged e he).trans hq.clock
  read t ht row j hj hlt := by
    obtain ⟨j', hj', hlt'⟩ := h.read t ht row j hj hlt
    exact ⟨j', by rw [hq.index]; exact hj', hlt'⟩
  staged t ht p hp j hj hlt := by
    obtain ⟨j', hj', hlt'⟩ := h.staged t ht p hp j hj hlt
    exact ⟨j', by rw [hq.index]; exact hj', hlt'⟩

/-- A step that writes, with a prune that keeps what the open transactions need. -/
theorem write (h : w.Tracked) {s' : SessionEngine} {l : List (RowId × SystemTimeMicros)}
    (hn : SessionEngine.Noted w.engine s' l) (hk : w.PruneKeeps w.txns) :
    Tracked ⟨s', w.txns, w.log ++ l⟩ := by
  have hlease : ∀ t ∈ w.txns, t.snapshot ∈ w.engine.openSnapshots := fun t ht => by
    rw [h.leases]
    exact Multiset.mem_coe.2 (List.mem_map_of_mem ht)
  refine ⟨hn.bounded, hn.snapshots.trans h.leases, fun t ht => (h.snapshots t ht).trans hn.clock,
    fun e he => ?_, fun t ht row j hj hlt => ?_, fun t ht p hp j hj hlt => ?_⟩
  · rcases List.mem_append.1 he with he | he
    · exact (h.logged e he).trans hn.clock
    · exact (hn.stamped e he).2.1
  · rcases List.mem_append.1 hj with hj | hj
    · obtain ⟨j', hj', hlt'⟩ := h.read t ht row j hj hlt
      obtain ⟨j'', hj'', hle⟩ := hn.kept row j' hj' ⟨_, hlease t ht, hlt'.le⟩
      exact ⟨j'', hj'', hlt'.trans_le hle⟩
    · obtain ⟨j', hj', hle⟩ := (hn.stamped _ hj).2.2 ⟨_, hlease t ht, hlt.le⟩
      exact ⟨j', hj', hlt.trans_le hle⟩
  · rcases List.mem_append.1 hj with hj | hj
    · obtain ⟨j', hj', hlt'⟩ := h.staged t ht p hp j hj hlt
      obtain ⟨other, hother, hle⟩ := hk t ht p hp j' hj' hlt'
      obtain ⟨j'', hj'', hle'⟩ := hn.kept _ j' hj' ⟨_, hlease other hother, hle⟩
      exact ⟨j'', hj'', hlt'.trans_le hle'⟩
    · obtain ⟨hge, -, hidx⟩ := hn.stamped _ hj
      obtain ⟨j', hj', hle⟩ := hidx ⟨_, hlease t ht, (h.snapshots t ht).trans hge⟩
      exact ⟨j', hj', hlt.trans_le hle⟩

/-- A transaction begins: nothing was written after its snapshot. -/
theorem begin_ (h : w.Tracked) (isolation : IsolationLevel) :
    Tracked { w with
      engine := (w.engine.beginWithIsolation isolation).1
      txns := w.txns ++ [(w.engine.beginWithIsolation isolation).2] } := by
  have hle : w.engine.clock.highWater ≤ w.engine.clock.observe.2 := w.engine.clock.le_observe
  have hhw : (w.engine.beginWithIsolation isolation).1.clock.highWater =
    w.engine.clock.observe.2 := w.engine.clock.highWater_observe
  refine ⟨fun row j hj => ?_, ?_, fun t ht => ?_, fun e he => ?_, fun t ht row j hj hlt => ?_,
    fun t ht p hp j hj hlt => ?_⟩
  · rw [hhw]
    exact (h.bounded row j hj).trans hle
  · change _ ::ₘ w.engine.openSnapshots = _
    rw [h.leases, List.map_append, ← Multiset.coe_add, add_comm]
    rfl
  · rw [hhw]
    rcases List.mem_append.1 ht with ht | ht
    · exact (h.snapshots t ht).trans hle
    · cases List.mem_singleton.1 ht
      exact le_rfl
  · rw [hhw]
    exact (h.logged e he).trans hle
  · rcases List.mem_append.1 ht with ht | ht
    · exact h.read t ht row j hj hlt
    · cases List.mem_singleton.1 ht
      exact absurd hlt (not_lt.2 ((h.logged _ hj).trans hle))
  · rcases List.mem_append.1 ht with ht | ht
    · exact h.staged t ht p hp j hj hlt
    · cases List.mem_singleton.1 ht
      cases hp

/-- A transaction keeps its snapshot; what it stages is anchored there. -/
theorem set (h : w.Tracked) (hi : w.txns[i]? = some txn) (hsnap : txn'.snapshot = txn.snapshot)
    (hstaged : ∀ p ∈ txn'.staged, p ∈ txn.staged ∨ p.2 = txn.snapshot) :
    Tracked { w with txns := w.txns.set i txn' } := by
  have hmem : txn ∈ w.txns := List.mem_of_getElem? hi
  have hmap : (w.txns.set i txn').map SessionTransaction.snapshot =
      w.txns.map SessionTransaction.snapshot := by
    obtain ⟨hlt, rfl⟩ := List.getElem?_eq_some_iff.1 hi
    have hself := @List.set_getElem_self _ (w.txns.map SessionTransaction.snapshot) i
      (by simpa using hlt)
    rwa [List.getElem_map, ← hsnap, ← List.map_set] at hself
  have hold : ∀ t ∈ w.txns.set i txn', t ∈ w.txns ∨ t = txn' := fun t ht =>
    (List.mem_or_eq_of_mem_set ht)
  refine ⟨h.bounded, by rw [hmap]; exact h.leases, fun t ht => ?_, h.logged, fun t ht => ?_,
    fun t ht p hp => ?_⟩
  · rcases hold t ht with ht | rfl
    · exact h.snapshots t ht
    · rw [hsnap]; exact h.snapshots txn hmem
  · rcases hold t ht with ht | rfl
    · exact h.read t ht
    · rw [hsnap]; exact h.read txn hmem
  · rcases hold t ht with ht | rfl
    · exact h.staged t ht p hp
    · rcases hstaged p hp with hp | hp
      · exact h.staged txn hmem p hp
      · rw [hp]; exact h.read txn hmem _

theorem modify (h : w.Tracked) (f : SessionTransaction → SessionTransaction)
    (hsnap : ∀ t, (f t).snapshot = t.snapshot) (hstaged : ∀ t, ∀ p ∈ (f t).staged, p ∈ t.staged) :
    Tracked { w with txns := w.txns.modify i f } := by
  rcases hi : w.txns[i]? with _ | txn
  · rw [List.modify_eq_set_getElem?, hi]
    exact h
  · rw [List.modify_eq_set_getElem?, hi]
    exact h.set hi (hsnap txn) fun p hp => .inl (hstaged txn p hp)

/-- Taking a transaction out takes its snapshot out of the leases. -/
theorem leases_eraseIdx (h : w.Tracked) (hi : w.txns[i]? = some txn) :
    w.engine.openSnapshots.erase txn.snapshot =
      ((w.txns.eraseIdx i).map SessionTransaction.snapshot : Multiset _) := by
  obtain ⟨hlt, rfl⟩ := List.getElem?_eq_some_iff.1 hi
  have hperm := (List.getElem_cons_eraseIdx_perm hlt).map SessionTransaction.snapshot
  rw [h.leases, ← Multiset.coe_eq_coe.2 hperm, List.map_cons, ← Multiset.cons_coe,
    Multiset.erase_cons_head]

/-- A transaction ends without writing. -/
theorem dropLease (h : w.Tracked) (hi : w.txns[i]? = some txn) :
    Tracked { w with engine := w.engine.dropLease txn, txns := w.txns.eraseIdx i } where
  bounded := h.bounded
  leases := h.leases_eraseIdx hi
  snapshots t ht := h.snapshots t (List.mem_of_mem_eraseIdx ht)
  logged := h.logged
  read t ht := h.read t (List.mem_of_mem_eraseIdx ht)
  staged t ht := h.staged t (List.mem_of_mem_eraseIdx ht)

/-- A transaction moves on to a new snapshot: nothing was written after it, and the anchors stay. -/
theorem repin (h : w.Tracked) (hi : w.txns[i]? = some txn) :
    Tracked { w with
      engine := (w.engine.repinSnapshot txn).1
      txns := w.txns.set i (w.engine.repinSnapshot txn).2 } := by
  have hle : w.engine.clock.highWater ≤ w.engine.clock.observe.2 := w.engine.clock.le_observe
  have hhw : (w.engine.repinSnapshot txn).1.clock.highWater = w.engine.clock.observe.2 :=
    w.engine.clock.highWater_observe
  have hold : ∀ t ∈ w.txns.set i (w.engine.repinSnapshot txn).2,
      t ∈ w.txns ∨ t = (w.engine.repinSnapshot txn).2 := fun t ht => List.mem_or_eq_of_mem_set ht
  refine ⟨fun row j hj => ?_, ?_, fun t ht => ?_, fun e he => ?_, fun t ht row j hj hlt => ?_,
    fun t ht p hp j hj hlt => ?_⟩
  · rw [hhw]
    exact (h.bounded row j hj).trans hle
  · obtain ⟨hlt, -⟩ := List.getElem?_eq_some_iff.1 hi
    have hperm := (List.set_perm_cons_eraseIdx hlt (w.engine.repinSnapshot txn).2).map
      SessionTransaction.snapshot
    rw [Multiset.coe_eq_coe.2 hperm, List.map_cons, ← Multiset.cons_coe, ← h.leases_eraseIdx hi]
    rfl
  · rw [hhw]
    rcases hold t ht with ht | rfl
    · exact (h.snapshots t ht).trans hle
    · exact le_rfl
  · rw [hhw]
    exact (h.logged e he).trans hle
  · rcases hold t ht with ht | rfl
    · exact h.read t ht row j hj hlt
    · exact absurd hlt (not_lt.2 ((h.logged _ hj).trans hle))
  · rcases hold t ht with ht | rfl
    · exact h.staged t ht p hp j hj hlt
    · exact h.staged txn (List.mem_of_getElem? hi) p hp j hj hlt

/-- The start of a statement. -/
theorem startStatement (h : w.Tracked) (hi : w.txns[i]? = some txn) :
    Tracked { w with
      engine := (w.engine.startStatement txn).1
      txns := w.txns.set i (w.engine.startStatement txn).2 } := by
  unfold SessionEngine.startStatement
  split
  · exact h.repin hi
  · exact h.set hi rfl fun p hp => .inl hp

/-- Staging a statement. -/
theorem stageDml (h : w.Tracked) (hi : w.txns[i]? = some txn) (dmls : List BoundDml) :
    Tracked { w with txns := w.txns.set i (w.engine.stageDml txn dmls).1 } := by
  unfold SessionEngine.stageDml
  split
  · exact h.set hi rfl fun p hp => .inl hp
  split
  · exact h.set hi rfl fun p hp => .inl hp
  · refine h.set hi rfl fun p hp => ?_
    rcases List.mem_append.1 hp with hp | hp
    · exact .inl hp
    · obtain ⟨dml, -, rfl⟩ := List.mem_map.1 hp
      exact .inr rfl

/-- A commit: the transaction is out, and its writes are in. -/
theorem commit (h : w.Tracked) (hi : w.txns[i]? = some txn)
    (hk : w.PruneKeeps (w.txns.eraseIdx i)) :
    Tracked ⟨(w.engine.commit txn).1, w.txns.eraseIdx i,
      Server.logged w.log (w.engine.commit txn).2
        (w.engine.runGroupStamps (txn.staged.map Prod.fst))⟩ := by
  have hout := h.dropLease hi
  rw [logged_eq]
  unfold SessionEngine.commit
  split
  · simpa [Server.logged] using hout
  split
  · simpa [Server.logged] using hout
  have hrun := (SessionEngine.noted_runGroup h.bounded (txn.staged.map Prod.fst)).dropLease txn
  have hpruned := hrun.andThen (SessionEngine.noted_pruneWriteIndex hrun.bounded)
  dsimp only
  rcases hg : w.engine.runGroup (txn.staged.map Prod.fst) with ⟨s₁, e | _⟩ <;> rw [hg] at hpruned
  · exact hout.write (hpruned.sublist (List.nil_subset _)) hk
  · exact hout.write hpruned hk

end Tracked

/-! ### Runs -/

/-- The transactions that stay open at the prune of a request, if it prunes. -/
def staying (w : Server) : Request → List SessionTransaction
  | .commit i => w.txns.eraseIdx i
  | .dml _ => w.txns
  | .copy _ _ => w.txns
  | _ => []

/-- No prune of the run forgets a write to a row that an open transaction has staged a write to,
from between the anchor of the staged write and the oldest lease. -/
def PrunesKeep (w : Server) (requests : List Request) : Prop :=
  ∀ past r, past ++ [r] <+: requests → (w.run past).PruneKeeps ((w.run past).staying r)

theorem prunesKeep_of_take {w : Server} {requests : List Request}
    (h : ∀ n : Fin requests.length, (w.run (requests.take n)).PruneKeeps
      ((w.run (requests.take n)).staying (requests.get n))) : w.PrunesKeep requests := by
  rintro past r ⟨rest, rfl⟩
  have hn := h ⟨past.length, by simp⟩
  simpa using hn

/-- One request. -/
theorem tracked_step (h : w.Tracked) (r : Request) (hk : w.PruneKeeps (w.staying r)) :
    (w.step r).1.Tracked := by
  have hset : ∀ {i : ℕ} {txn : SessionTransaction} (txn' : SessionTransaction),
      w.txns[i]? = some txn → (w.txns.set i txn')[i]? = some txn' := fun txn' hi => by
    obtain ⟨hlt, -⟩ := List.getElem?_eq_some_iff.1 hi
    exact List.getElem?_set_self hlt
  cases r with
  | begin_ isolation => exact h.begin_ isolation
  | setIsolation i isolation => exact h.modify _ (fun _ => rfl) fun _ _ hp => hp
  | stage i dmls =>
    rcases hi : w.txns[i]? with _ | txn
    · simpa only [step, hi] using h
    simp only [step, hi]
    have hstaged := (h.startStatement hi).stageDml (hset _ hi) dmls
    rwa [List.set_set] at hstaged
  | copyStage i table rows =>
    rcases hi : w.txns[i]? with _ | txn
    · simpa only [step, hi] using h
    simp only [step, hi]
    split
    · exact h
    · exact h.stageDml hi _
  | select i =>
    rcases hi : w.txns[i]? with _ | txn
    · simpa only [step, hi] using h
    simp only [step, hi]
    exact h.startStatement hi
  | commandIn i c =>
    rcases hi : w.txns[i]? with _ | txn
    · simpa only [step, hi] using h
    simp only [step, hi]
    have hs := h.startStatement hi
    have hc := hs.quiet (SessionEngine.quiet_applyCommand _ c)
    dsimp only at hc ⊢
    unfold SessionEngine.executeCommandInTxn
    dsimp only
    rcases ha : (w.engine.startStatement txn).1.applyCommand c with ⟨s₁, e | _⟩ <;> rw [ha] at hc
    · exact hc
    · have hr := hc.repin (hset _ hi)
      rwa [List.set_set] at hr
  | repin i =>
    rcases hi : w.txns[i]? with _ | txn
    · simpa only [step, hi] using h
    simp only [step, hi]
    exact h.repin hi
  | savepoint i name => exact h.modify _ (fun _ => rfl) fun _ _ hp => hp
  | rollbackTo i name =>
    refine h.modify _ (fun t => ?_) fun t p hp => ?_
    · unfold SessionTransaction.rollbackTo
      split <;> rfl
    · unfold SessionTransaction.rollbackTo at hp
      split at hp
      · exact hp
      · exact List.mem_of_mem_take hp
  | release i name =>
    refine h.modify _ (fun t => ?_) fun t p hp => ?_
    · unfold SessionTransaction.release
      split <;> rfl
    · unfold SessionTransaction.release at hp
      split at hp <;> exact hp
  | rollback i =>
    rcases hi : w.txns[i]? with _ | txn
    · simpa only [step, hi] using h
    simp only [step, hi]
    exact h.dropLease hi
  | commit i =>
    rcases hi : w.txns[i]? with _ | txn
    · simpa only [step, hi] using h
    simp only [step, hi]
    exact h.commit hi hk
  | dml stmt =>
    simp only [step]
    rw [logged_eq]
    exact h.write (SessionEngine.noted_executeDml h.bounded stmt) hk
  | copy table rows =>
    simp only [step]
    rw [logged_eq]
    exact h.write (SessionEngine.noted_copyApply h.bounded table rows) hk
  | command c =>
    exact h.quiet ((SessionEngine.quiet_observe _).trans (SessionEngine.quiet_applyCommand _ c))
  | setPrincipal name => exact h.quiet ⟨le_rfl, rfl, rfl⟩
  | faults f => exact h.quiet (SessionEngine.quiet_withFaults _ f)

/-- Whole runs. -/
theorem tracked_run (h : w.Tracked) {requests : List Request} (hk : w.PrunesKeep requests) :
    (w.run requests).Tracked := by
  induction requests using List.reverseRecOn with
  | nil => exact h
  | append_singleton requests r ih =>
    rw [run_append]
    refine tracked_step (ih fun past r' hp => hk past r' ?_) r (hk requests r List.prefix_rfl)
    exact hp.trans (List.prefix_append _ _)

end Server

open Server SessionEngine

/-- **No lost update.**  From a new or recovered session on, in every run in which no prune forgets
a write that an open transaction needs, a transaction that commits has, for every write it staged,
seen all committed writes to that row: none is later than the snapshot the write was staged
under. -/
theorem no_lost_update {s : SessionEngine} (hs : s.Started) (requests : List Request)
    (hk : Server.PrunesKeep ⟨s, [], []⟩ requests) {i : ℕ} {txn : SessionTransaction}
    (htxn : (Server.run ⟨s, [], []⟩ requests).txns[i]? = some txn)
    (hok : ((Server.run ⟨s, [], []⟩ requests).step (.commit i)).2 = .ok ()) :
    ∀ p ∈ txn.staged, ∀ at_, (p.1.row, at_) ∈ (Server.run ⟨s, [], []⟩ requests).log →
      at_ ≤ p.2 := by
  have h := tracked_run (Tracked.started hs) hk
  generalize Server.run ⟨s, [], []⟩ requests = w at *
  intro p hp at_ hlog
  by_contra hlt
  obtain ⟨j, hj, hlt'⟩ := h.staged txn (List.mem_of_getElem? htxn) p hp at_ hlog (not_le.1 hlt)
  have hconf : w.engine.conflicts txn = true :=
    List.any_eq_true.2 ⟨p, hp, by rw [hj]; exact decide_eq_true hlt'⟩
  have hres : (w.engine.commit txn).2 ≠ .ok () := by
    unfold SessionEngine.commit
    rw [if_pos hconf]
    split <;> exact fun h => nomatch h
  simp only [Server.step, htxn] at hok
  exact hres hok

/-- `INSERT INTO t VALUES (key, value)`, with `t` a table of two columns `i` and `v`. -/
def insertRow (key value : Fin 256) : BoundDml := ⟨[116], [key], .insert [some [value]] none⟩

/-- `UPDATE t SET v = value WHERE i = key`. -/
def updateRow (key value : Fin 256) : BoundDml := ⟨[116], [key], .update [(0, some [value])] none⟩

/-- A transaction stages an update of a row, and another session inserts another row. -/
def stagedUpdate (isolation : IsolationLevel) : List Request :=
  [.command (.ddl (.createTable [116] [⟨[105], .int4, by decide⟩, ⟨[118], .int4, by decide⟩] none)),
   .dml (.point (insertRow 1 0)), .begin_ isolation, .stage 0 [updateRow 1 1],
   .dml (.point (insertRow 2 0))]

theorem no_lost_update_stagedUpdate :
    (((Server.opened fun _ => 0).run (stagedUpdate .repeatableRead)).step (.commit 0)).2 = .ok () ∧
      ∀ txn, ((Server.opened fun _ => 0).run (stagedUpdate .repeatableRead)).txns[0]? = some txn →
        ∀ p ∈ txn.staged, ∀ at_,
          (p.1.row, at_) ∈ ((Server.opened fun _ => 0).run (stagedUpdate .repeatableRead)).log →
            at_ ≤ p.2 := by
  have hok : (((Server.opened fun _ => 0).run (stagedUpdate .repeatableRead)).step (.commit 0)).2 =
    .ok () := by decide +kernel
  refine ⟨hok, fun txn htxn => no_lost_update (started_opened _) _ ?_ htxn hok⟩
  refine prunesKeep_of_take ?_
  decide +kernel

/-- Another session updates the row too and then writes elsewhere; the transaction's next statement
moves its lease past the first of these writes, and the next prune forgets it. -/
def repinnedUpdate : List Request :=
  stagedUpdate .readCommitted ++ [.dml (.point (updateRow 1 2)), .dml (.point (insertRow 3 0)),
    .select 0, .dml (.point (insertRow 4 0))]

/-- Without the condition an update is lost: the transaction commits over a write to the row that is
later than the snapshot its own was staged under. -/
theorem lost_update_of_repin :
    (((Server.opened fun _ => 0).run repinnedUpdate).step (.commit 0)).2 = .ok () ∧
      ((Server.opened fun _ => 0).run repinnedUpdate).txns.map SessionTransaction.staged =
        [[(updateRow 1 1, 2)]] ∧
      ((updateRow 1 1).row, 4) ∈ ((Server.opened fun _ => 0).run repinnedUpdate).log := by
  refine ⟨?_, ?_, ?_⟩ <;> decide +kernel

end SteleDb
