import SteleDb.Lib.Runs
import SteleDb.Session.TypedRows

/-!
# Writes and the table they were bound to

A write is bound against the schema its table has at a snapshot, and applied when its statement or
its transaction is.  In between other sessions may have dropped the table and created another one of
the name.  Applying checks that the number of columns is right, not that the schema is the one of
the binding.

* `SessionEngine.typedNow_of_anchored` : a staged write fits the live schema if its table has not
  been created again since;
* `Server.Kept.step` : every request keeps the rows typed, if what it commits is fresh;
* `writes_reach_their_incarnation` : the property over whole runs, and `insert_into_another` a run
  that is not fresh.
-/

namespace SteleDb

namespace SessionEngine

variable {s s' : SessionEngine}

/-! ### Transactions -/

/-- The writes a transaction has staged are typed for what their tables resolved to when they were
bound. -/
def Anchored (s : SessionEngine) (txn : SessionTransaction) : Prop :=
  txn.snapshot ≤ s.clock.highWater ∧
    ∀ b ∈ txn.staged, b.2 ≤ s.clock.highWater ∧ b.1.TypedAt s.catalog b.2

theorem Anchored.follows {txn : SessionTransaction} (h : s.Anchored txn) (hf : Follows s s') :
    s'.Anchored txn := by
  refine ⟨h.1.trans hf.clock, fun b hb => ?_⟩
  obtain ⟨hle, htyped⟩ := h.2 b hb
  refine ⟨hle.trans hf.clock, fun schema hschema => ?_⟩
  rw [hf.resolve _ _ hle] at hschema
  exact htyped schema hschema

/-- Some of the staged writes. -/
theorem Anchored.sublist {txn txn' : SessionTransaction} (h : s.Anchored txn)
    (hsnapshot : txn'.snapshot = txn.snapshot) (hstaged : txn'.staged ⊆ txn.staged) :
    s.Anchored txn' := ⟨hsnapshot ▸ h.1, fun b hb => h.2 b (hstaged hb)⟩

theorem follows_startStatement (s : SessionEngine) (txn : SessionTransaction) :
    Follows s (s.startStatement txn).1 := by
  unfold startStatement
  cases txn.isolation with
  | readCommitted => exact .of_tables (quiet_observe s).clock rfl rfl
  | repeatableRead => exact .refl s

theorem anchored_repinSnapshot {txn : SessionTransaction} (h : s.Anchored txn) :
    Follows s (s.repinSnapshot txn).1 ∧
      (s.repinSnapshot txn).1.Anchored (s.repinSnapshot txn).2 := by
  have hf : Follows s (s.repinSnapshot txn).1 := .of_tables (quiet_observe s).clock rfl rfl
  refine ⟨hf, ?_, (h.follows hf).2⟩
  exact (s.clock.highWater_observe).symm.le

theorem anchored_startStatement {txn : SessionTransaction} (h : s.Anchored txn) :
    (s.startStatement txn).1.Anchored (s.startStatement txn).2 := by
  unfold startStatement
  cases txn.isolation with
  | readCommitted => exact (anchored_repinSnapshot h).2
  | repeatableRead => exact h

theorem anchored_stageDml {txn : SessionTransaction} {dmls : List BoundDml} (h : s.Anchored txn)
    (htyped : ∀ dml ∈ dmls, dml.TypedAt s.catalog txn.snapshot) :
    s.Anchored (s.stageDml txn dmls).1 := by
  unfold stageDml
  split
  · exact h
  split
  · exact h
  refine ⟨h.1, fun b hb => ?_⟩
  rcases List.mem_append.1 hb with hold | hnew
  · exact h.2 b hold
  · obtain ⟨dml, hdml, rfl⟩ := List.mem_map.1 hnew
    exact ⟨h.1, htyped dml hdml⟩

/-- A staged write is typed now, if its table has not been created again since it was staged. -/
theorem typedNow_of_anchored (hs : s.Incarnated) {dml : BoundDml} {anchor : SystemTimeMicros}
    (hle : anchor ≤ s.clock.highWater) (htyped : dml.TypedAt s.catalog anchor)
    (hfresh : ∀ cur, s.catalog.openVersion dml.table = some cur → cur.sysFrom ≤ anchor) :
    s.TypedNow dml := by
  intro at_ hat schema hschema
  obtain ⟨cur, hcur, rfl, -, hlt⟩ := hs.ordered.open_of_resolve_from hat hschema
  refine htyped cur.schema (hs.ordered.resolve_of_open hcur (hfresh cur hcur) ?_)
  exact (hle.trans hat).trans_lt hlt

/-- What is typed for the present schema is typed for as long as the schema stays. -/
theorem typedNow_of_current (hs : s.Incarnated) {dml : BoundDml}
    (htyped : dml.TypedAt s.catalog s.clock.highWater) : s.TypedNow dml := by
  intro at_ hat schema hschema
  obtain ⟨cur, hcur, rfl, hfrom, hlt⟩ := hs.ordered.open_of_resolve_from hat hschema
  exact htyped cur.schema (hs.ordered.resolve_of_open hcur hfrom (hat.trans_lt hlt))

theorem follows_commit (hs : s.Incarnated) {txn : SessionTransaction} (htxn : s.Anchored txn)
    (hfresh : ∀ b ∈ txn.staged, ∀ cur, s.catalog.openVersion b.1.table = some cur →
      cur.sysFrom ≤ b.2)
    (hown : OwnRows s.nextTxn s.writePrincipal s.takeTxnId [] (txn.staged.map Prod.fst)) :
    Follows s (s.commit txn).1 := by
  have hlease : ∀ s : SessionEngine, Follows s (s.dropLease txn) :=
    fun s => .of_tables le_rfl rfl rfl
  unfold commit
  split
  · exact hlease s
  split
  · exact hlease s
  have htyped : ∀ dml ∈ txn.staged.map Prod.fst, s.TypedNow dml := by
    intro dml hdml
    obtain ⟨b, hb, rfl⟩ := List.mem_map.1 hdml
    obtain ⟨hle, hty⟩ := htxn.2 b hb
    exact typedNow_of_anchored hs hle hty (hfresh b hb)
  exact ((follows_runGroup hs htyped hown).trans (hlease _)).trans (follows_pruneWriteIndex _)

/-! ### What a statement has written to -/

theorem isSome_resolve_of_applyBoundDml {dml : BoundDml} {txnId : TxnId} {principal : Bytes}
    (h : s.applyBoundDml dml txnId principal = (s', .ok ())) :
    (s.catalog.resolve dml.table s.clock.highWater).isSome := by
  obtain ⟨op, s₁, -, hw, -⟩ := applyBoundDml_ok h
  unfold write at hw
  split at hw
  · cases hw
  split at hw
  · cases hw
  split at hw
  · cases hw
  · next st hst => exact (tableMut_ok hst).2

/-- A group that is applied writes to tables that are live. -/
theorem exists_resolve_of_applyGroup (txnId : TxnId) (principal : Bytes) {touched : List Name}
    {dmls : List BoundDml} (hok : (applyGroup txnId principal s touched dmls).2.2 = .ok ())
    {dml : BoundDml} (hdml : dml ∈ dmls) : ∃ at_, s.clock.highWater ≤ at_ ∧
      (s.catalog.resolve dml.table at_).isSome := by
  induction dmls generalizing s touched with
  | nil => cases hdml
  | cons dml' dmls ih =>
    rw [applyGroup] at hok
    rcases htouch : s.touch touched dml'.table with e | ⟨s₁, touched₁⟩
    · simp only [htouch] at hok
      cases hok
    simp only [htouch] at hok
    have hclock₁ := (quiet_touch htouch).clock
    have hcat₁ := catalog_touch htouch
    have hcat₂ := catalog_applyBoundDml s₁ dml' txnId principal
    rcases h : s₁.applyBoundDml dml' txnId principal with ⟨s₂, e | _⟩
    · simp only [h] at hok
      cases hok
    rw [h] at hcat₂
    simp only [h] at hok
    rcases List.mem_cons.1 hdml with rfl | hlater
    · refine ⟨s₁.clock.highWater, hclock₁, ?_⟩
      rw [← hcat₁]
      exact isSome_resolve_of_applyBoundDml h
    · obtain ⟨at_, hat, hsome⟩ := ih hok hlater
      obtain ⟨op, s₃, -, hw, rfl⟩ := applyBoundDml_ok h
      have hclock₂ := quiet_write s₁ dml'.table dml'.key op txnId principal
      rw [hw] at hclock₂
      refine ⟨at_, (hclock₁.trans hclock₂.clock).trans hat, ?_⟩
      rw [← hcat₁, ← show s₃.catalog = s₁.catalog from hcat₂]
      exact hsome

/-- A statement is bound where it is executed. -/
theorem isSome_resolve_of_checkDml {snapshot : SystemTimeMicros} {dmls : List BoundDml}
    (h : s.checkDml snapshot dmls = .ok ()) {dml : BoundDml} (hdml : dml ∈ dmls) :
    (s.catalog.resolve dml.table snapshot).isSome := by
  induction dmls with
  | nil => cases hdml
  | cons dml' dmls ih =>
    rw [checkDml] at h
    split_ifs at h with hnone
    split at h
    · cases h
    rcases List.mem_cons.1 hdml with rfl | hlater
    · rw [Option.isNone_iff_eq_none] at hnone
      exact Option.isSome_iff_ne_none.2 hnone
    · exact ih h hlater

/-- The identifier of the schema that a name resolves to at a snapshot: what binding puts into a
write. -/
def boundId (s : SessionEngine) (table : Name) (snapshot : SystemTimeMicros) : Option SchemaId :=
  (s.catalog.resolve table snapshot).map TableSchema.schemaId

/-- The identifier of the live schema of a name. -/
def liveId (s : SessionEngine) (table : Name) : Option SchemaId :=
  (s.catalog.openVersion table).map fun v => v.schema.schemaId

theorem boundId_eq_liveId (hs : s.Incarnated) {table : Name} {at_ anchor : SystemTimeMicros}
    (hat : s.clock.highWater ≤ at_) (hsome : (s.catalog.resolve table at_).isSome)
    (hle : anchor ≤ at_)
    (hfresh : ∀ cur, s.catalog.openVersion table = some cur → cur.sysFrom ≤ anchor) :
    (s.boundId table anchor).isSome ∧ s.boundId table anchor = s.liveId table := by
  obtain ⟨schema, hschema⟩ := Option.isSome_iff_exists.1 hsome
  obtain ⟨cur, hcur, rfl, -, hlt⟩ := hs.ordered.open_of_resolve_from hat hschema
  have hbound := hs.ordered.resolve_of_open hcur (hfresh cur hcur) (hle.trans_lt hlt)
  rw [boundId, liveId, hbound, hcur]
  exact ⟨rfl, rfl⟩

end SessionEngine

open SessionEngine

namespace Server

variable {w : Server} {i : ℕ} {txn : SessionTransaction}

/-! ### Requests -/

/-- The writes that a request applies, with the snapshots they were bound at. -/
def applied (w : Server) : Request → List (BoundDml × SystemTimeMicros)
  | .commit i => (w.txns[i]?.map SessionTransaction.staged).getD []
  | .dml stmt => stmt.writes.map fun dml => (dml, w.engine.clock.observe.2)
  | .copy table rows =>
    rows.filterMap fun row => row.map fun row => (row.dml table, w.engine.clock.observe.2)
  | _ => []

/-- A request that succeeds has applied no write that was bound against another schema than the
live one. -/
def AppliesToIncarnation (w : Server) (r : Request) : Prop :=
  (w.step r).2 = .ok () → ∀ b ∈ w.applied r,
    (w.engine.boundId b.1.table b.2).isSome ∧
      w.engine.boundId b.1.table b.2 = w.engine.liveId b.1.table

/-- What binding ensures: the writes of a request are typed for the schemas at the snapshot they are
bound at. -/
def Binds (w : Server) : Request → Prop
  | .stage i dmls => ∀ txn, w.txns[i]? = some txn → ∀ dml ∈ dmls,
      dml.TypedAt w.engine.catalog (w.engine.startStatement txn).2.snapshot
  | .copyStage i table rows => ∀ txn, w.txns[i]? = some txn → ∀ row ∈ rows,
      (row.dml table).TypedAt w.engine.catalog txn.snapshot
  | .dml stmt => ∀ dml ∈ stmt.writes, dml.TypedAt w.engine.catalog w.engine.clock.observe.2
  | .copy table rows => ∀ row, some row ∈ rows →
      (row.dml table).TypedAt w.engine.catalog w.engine.clock.observe.2
  | _ => True

/-- A commit comes before any of its tables is created again since the write to it was staged, and
no update finds a row of an earlier era of its table. -/
def Fresh (w : Server) : Request → Prop
  | .commit i => ∀ txn, w.txns[i]? = some txn →
      (∀ b ∈ txn.staged, ∀ cur, w.engine.catalog.openVersion b.1.table = some cur →
        cur.sysFrom ≤ b.2) ∧
      OwnRows w.engine.nextTxn w.engine.writePrincipal w.engine.takeTxnId []
        (txn.staged.map Prod.fst)
  | .dml stmt =>
      OwnRows w.engine.nextTxn w.engine.writePrincipal w.engine.observe.takeTxnId [] stmt.writes
  | _ => True

/-- A step changes nothing about what names resolved to up to the clock's mark. -/
def KeepsThePast (w : Server) (r : Request) : Prop :=
  ∀ t at_, at_ ≤ w.engine.clock.current →
    (w.step r).1.engine.catalog.resolve t at_ = w.engine.catalog.resolve t at_

/-- The rows of the tables are typed, and so are the staged writes. -/
structure Kept (w : Server) : Prop where
  engine : w.engine.Incarnated
  txns : ∀ txn ∈ w.txns, w.engine.Anchored txn

/-- What a step does: the engine moves on, and the transactions are anchored. -/
structure Steps (w w' : Server) : Prop where
  engine : Follows w.engine w'.engine
  txns : ∀ txn ∈ w'.txns, w'.engine.Anchored txn

theorem Kept.steps {w' : Server} (h : w.Kept) (hs : Steps w w') : w'.Kept :=
  ⟨h.engine.follows hs.engine, hs.txns⟩

/-- The transactions stay. -/
theorem Steps.of_engine (h : w.Kept) {s' : SessionEngine} (hf : Follows w.engine s')
    {txns : List SessionTransaction} (htxns : ∀ txn ∈ txns, txn ∈ w.txns)
    (log : List (RowId × SystemTimeMicros)) : Steps w ⟨s', txns, log⟩ :=
  ⟨hf, fun txn hmem => (h.txns txn (htxns txn hmem)).follows hf⟩

/-- One transaction is replaced. -/
theorem Steps.set (h : w.Kept) {s' : SessionEngine} (hf : Follows w.engine s')
    {txn' : SessionTransaction} (htxn' : s'.Anchored txn') :
    Steps w { w with engine := s', txns := w.txns.set i txn' } := by
  refine ⟨hf, fun txn hmem => ?_⟩
  rcases List.mem_or_eq_of_mem_set hmem with hold | rfl
  · exact (h.txns txn hold).follows hf
  · exact htxn'

/-- One transaction is changed, but for its snapshot, and stages no more. -/
theorem Steps.modify (h : w.Kept) {f : SessionTransaction → SessionTransaction}
    (hsnapshot : ∀ txn, (f txn).snapshot = txn.snapshot)
    (hstaged : ∀ txn, (f txn).staged ⊆ txn.staged) :
    Steps w { w with txns := w.txns.modify i f } := by
  refine ⟨.refl _, fun txn hmem => ?_⟩
  obtain ⟨j, hj⟩ := List.mem_iff_getElem?.1 hmem
  rw [List.getElem?_modify, Option.map_eq_map, Option.map_eq_some_iff] at hj
  obtain ⟨old, hold, rfl⟩ := hj
  have hanchored := h.txns old (List.mem_of_getElem? hold)
  dsimp only
  split_ifs
  · exact hanchored.sublist (hsnapshot old) (hstaged old)
  · exact hanchored

/-- Nothing happens. -/
theorem Steps.refl (h : w.Kept) : Steps w w := ⟨.refl _, h.txns⟩

/-- **One request.** -/
theorem Kept.step (h : w.Kept) (r : Request) (hb : w.Binds r) (hf : w.Fresh r) :
    Steps w (w.step r).1 := by
  have hobserved := h.engine.follows (follows_observe w.engine)
  have hmark : w.engine.observe.clock.highWater = w.engine.clock.observe.2 :=
    w.engine.clock.highWater_observe
  cases r with
  | begin_ isolation =>
    have hbegin : Follows w.engine (w.engine.beginWithIsolation isolation).1 :=
      .of_tables (quiet_observe w.engine).clock rfl rfl
    refine ⟨hbegin, fun txn hmem => ?_⟩
    rcases List.mem_append.1 hmem with hold | hnew
    · exact (h.txns txn hold).follows hbegin
    · rw [List.mem_singleton.1 hnew]
      exact ⟨hmark.ge, fun b hstaged => (nomatch hstaged)⟩
  | setIsolation i isolation => exact .modify h (fun _ => rfl) fun _ => List.Subset.refl _
  | stage i dmls =>
    rcases hi : w.txns[i]? with _ | txn
    · simpa only [Server.step, hi] using Steps.refl h
    simp only [Server.step, hi]
    have hstart := follows_startStatement w.engine txn
    have hcatalog : (w.engine.startStatement txn).1.catalog = w.engine.catalog :=
      catalog_of_rules (rules_startStatement w.engine txn)
    refine .set h hstart (anchored_stageDml
      (anchored_startStatement (h.txns txn (List.mem_of_getElem? hi))) ?_)
    rw [hcatalog]
    exact hb txn hi
  | copyStage i table rows =>
    rcases hi : w.txns[i]? with _ | txn
    · simpa only [Server.step, hi] using Steps.refl h
    simp only [Server.step, hi]
    split
    · exact .refl h
    · refine .set h (.refl _) (anchored_stageDml (h.txns txn (List.mem_of_getElem? hi)) ?_)
      intro dml hdml
      obtain ⟨row, hrow, rfl⟩ := List.mem_map.1 hdml
      exact hb txn hi row hrow
  | select i =>
    rcases hi : w.txns[i]? with _ | txn
    · simpa only [Server.step, hi] using Steps.refl h
    simp only [Server.step, hi]
    exact .set h (follows_startStatement w.engine txn)
      (anchored_startStatement (h.txns txn (List.mem_of_getElem? hi)))
  | commandIn i c =>
    rcases hi : w.txns[i]? with _ | txn
    · simpa only [Server.step, hi] using Steps.refl h
    simp only [Server.step, hi]
    have hstart := follows_startStatement w.engine txn
    have hanchored := anchored_startStatement (h.txns txn (List.mem_of_getElem? hi))
    have hcommand := follows_applyCommand (w.engine.startStatement txn).1 c
    unfold executeCommandInTxn
    dsimp only
    rcases ha : (w.engine.startStatement txn).1.applyCommand c with ⟨s₁, e | _⟩
    all_goals
      rw [ha] at hcommand
    · exact .set h (hstart.trans hcommand) (hanchored.follows hcommand)
    · obtain ⟨hrepin, hrepinned⟩ := anchored_repinSnapshot (hanchored.follows hcommand)
      exact .set h ((hstart.trans hcommand).trans hrepin) hrepinned
  | repin i =>
    rcases hi : w.txns[i]? with _ | txn
    · simpa only [Server.step, hi] using Steps.refl h
    simp only [Server.step, hi]
    obtain ⟨hrepin, hrepinned⟩ := anchored_repinSnapshot (h.txns txn (List.mem_of_getElem? hi))
    exact .set h hrepin hrepinned
  | savepoint i name => exact .modify h (fun _ => rfl) fun _ => List.Subset.refl _
  | rollbackTo i name =>
    refine .modify h (fun txn => ?_) fun txn => ?_
    · unfold SessionTransaction.rollbackTo
      split <;> rfl
    · unfold SessionTransaction.rollbackTo
      split
      · exact List.Subset.refl _
      · exact List.take_subset _ _
  | release i name =>
    refine .modify h (fun txn => ?_) fun txn => ?_
    · unfold SessionTransaction.release
      split <;> rfl
    · unfold SessionTransaction.release
      split <;> exact List.Subset.refl _
  | rollback i =>
    rcases hi : w.txns[i]? with _ | txn
    · simpa only [Server.step, hi] using Steps.refl h
    simp only [Server.step, hi]
    have hlease : Follows w.engine (w.engine.dropLease txn) := .of_tables le_rfl rfl rfl
    exact .of_engine h hlease (fun _ hmem => List.mem_of_mem_eraseIdx hmem) _
  | commit i =>
    rcases hi : w.txns[i]? with _ | txn
    · simpa only [Server.step, hi] using Steps.refl h
    simp only [Server.step, hi]
    obtain ⟨hfresh, hown⟩ := hf txn hi
    exact .of_engine h (follows_commit h.engine (h.txns txn (List.mem_of_getElem? hi)) hfresh hown)
      (fun _ hmem => List.mem_of_mem_eraseIdx hmem) _
  | dml stmt =>
    have htyped : ∀ dml ∈ stmt.writes, w.engine.observe.TypedNow dml := fun dml hdml =>
      typedNow_of_current hobserved (hmark ▸ hb dml hdml)
    exact .of_engine h (follows_executeDml h.engine htyped hf) (fun _ hmem => hmem) _
  | copy table rows =>
    have htyped : ∀ row, some row ∈ rows → w.engine.observe.TypedNow (row.dml table) :=
      fun row hrow => typedNow_of_current hobserved (hmark ▸ hb row hrow)
    exact .of_engine h (follows_copyApply h.engine htyped) (fun _ hmem => hmem) _
  | command c =>
    exact .of_engine h ((follows_observe _).trans (follows_applyCommand _ c))
      (fun _ hmem => hmem) _
  | setPrincipal name =>
    have hset : Follows w.engine { w.engine with writePrincipal := name } :=
      .of_tables le_rfl rfl rfl
    exact .of_engine h hset (fun _ hmem => hmem) _
  | faults f => exact .of_engine h (follows_withFaults _ f) (fun _ hmem => hmem) _

/-- What a fresh request that succeeds has written to. -/
theorem Kept.appliesToIncarnation (h : w.Kept) (r : Request) (hf : w.Fresh r) :
    w.AppliesToIncarnation r := by
  have hobserved := h.engine.follows (follows_observe w.engine)
  have hmark : w.engine.observe.clock.highWater = w.engine.clock.observe.2 :=
    w.engine.clock.highWater_observe
  -- a statement that is executed at once is bound where it is applied
  have hnow : ∀ table, (w.engine.catalog.resolve table w.engine.clock.observe.2).isSome →
      (w.engine.boundId table w.engine.clock.observe.2).isSome ∧
        w.engine.boundId table w.engine.clock.observe.2 = w.engine.liveId table := by
    intro table hsome
    have hle := w.engine.clock.le_observe
    refine boundId_eq_liveId h.engine hle hsome le_rfl fun cur hcur => ?_
    obtain ⟨schema, hschema⟩ := Option.isSome_iff_exists.1 hsome
    obtain ⟨cur', hcur', -, hfrom, -⟩ := h.engine.ordered.open_of_resolve_from hle hschema
    rw [hcur] at hcur'
    cases hcur'
    exact hfrom.trans hle
  intro hok b hb
  unfold applied at hb
  split at hb
  · next i =>
    rcases hi : w.txns[i]? with _ | txn
    · rw [hi] at hb
      cases hb
    rw [hi] at hb
    have hstaged : b ∈ txn.staged := hb
    simp only [Server.step, hi] at hok
    have hgroup : (applyGroup w.engine.nextTxn w.engine.writePrincipal w.engine.takeTxnId []
        (txn.staged.map Prod.fst)).2.2 = .ok () := by
      unfold commit runGroup at hok
      split at hok
      · cases hok
      split at hok
      · cases hok
      dsimp only at hok
      split at hok
      · next hg => rw [hg]
      · cases hok
    obtain ⟨at_, hat, hsome⟩ :=
      exists_resolve_of_applyGroup _ _ hgroup (List.mem_map_of_mem hstaged)
    have hle := ((h.txns txn (List.mem_of_getElem? hi)).2 b hstaged).1
    exact boundId_eq_liveId h.engine hat hsome (hle.trans hat) ((hf txn hi).1 b hstaged)
  · next stmt =>
    obtain ⟨dml, hdml, rfl⟩ := List.mem_map.1 hb
    refine hnow dml.table ?_
    have hcheck : w.engine.checkDml w.engine.clock.observe.2 stmt.writes = .ok () := by
      simp only [Server.step] at hok
      unfold executeDml at hok
      split at hok
      · cases hok
      split at hok
      · cases hok
      · assumption
    exact isSome_resolve_of_checkDml hcheck hdml
  · next table rows =>
    obtain ⟨row, -, hrow⟩ := List.mem_filterMap.1 hb
    obtain ⟨bound, -, rfl⟩ := Option.map_eq_some_iff.1 hrow
    refine hnow table ?_
    simp only [Server.step] at hok
    unfold copyApply at hok
    split at hok
    · cases hok
    split at hok
    · cases hok
    split_ifs at hok with hnone
    · rw [Option.isNone_iff_eq_none] at hnone
      exact Option.isSome_iff_ne_none.2 hnone
    · rw [Option.isNone_iff_eq_none] at hnone
      exact Option.isSome_iff_ne_none.2 hnone
  · cases hb

/-- The server after a request. -/
def advance (w : Server) (r : Request) : Server := (w.step r).1

theorem kept_opened (inner : ℕ → SystemTimeMicros) : (opened inner).Kept where
  engine := .opened inner
  txns _ hmem := nomatch hmem

end Server

open Server

/-- **Writes are applied to the incarnation they were bound to**, in every run of bound requests in
which no transaction commits a write to a table that was created again after the write was staged,
and no update finds a row that a failed drop has left open: what succeeds has applied writes of the
live schema only, and every row that is stored is of the types its table had at its instant.  What
a name resolved to at an instant is never changed later. -/
theorem writes_reach_their_incarnation {inner : ℕ → SystemTimeMicros} {requests : List Request}
    (hbinds : Runs.Along advance Binds (Server.opened inner) requests)
    (hfresh : Runs.Along advance Fresh (Server.opened inner) requests) :
    Runs.Along advance AppliesToIncarnation (Server.opened inner) requests ∧
      Runs.Along advance KeepsThePast (Server.opened inner) requests ∧
      ((Server.opened inner).run requests).engine.RowsTyped := by
  have hboth := hbinds.and hfresh
  have hstep : ∀ (w : Server) r, w.Kept → w.Binds r ∧ w.Fresh r → (w.advance r).Kept :=
    fun w r h hr => h.steps (h.step r hr.1 hr.2)
  refine ⟨hboth.of_invariant hstep ?_ (kept_opened inner),
    hboth.of_invariant hstep ?_ (kept_opened inner), ?_⟩
  · exact fun w r h hr => h.appliesToIncarnation r hr.2
  · exact fun w r h hr t at_ hle => (h.step r hr.1 hr.2).engine.resolve t at_ hle
  · exact (hboth.invariant hstep (kept_opened inner)).engine.rowsTyped

/-! ### A table that is created again -/

theorem idColumn_ne_nil : ([105] : Name) ≠ [] := by decide

theorem valueColumn_ne_nil : ([118] : Name) ≠ [] := by decide

/-- `CREATE TABLE t (i INT PRIMARY KEY, v …)`. -/
def createT (ty : LogicalType) : Request :=
  .command (.ddl (.createTable [116]
    [⟨[105], .int4, idColumn_ne_nil⟩, ⟨[118], ty, valueColumn_ne_nil⟩] none))

/-- `INSERT INTO t VALUES (1, 'x')`. -/
def insertX : BoundDml := CopyRow.dml [116] ⟨[1], [some [120]]⟩

/-- A transaction stages an insert into a table with a text column. -/
def stagedText : List Request := [createT .text, .begin_ .repeatableRead, .stage 0 [insertX]]

/-- Before the transaction commits another session creates the table again, with a column of
integers. -/
def recreatedT : List Request :=
  stagedText ++ [.command (.ddl (.dropTable [116] false)), createT .int8]

theorem isCell_x : IsCell .text (some [120]) := by
  refine ⟨some (.text [120]), rfl, fun v hv => ?_⟩
  cases hv
  refine ⟨rfl, ?_⟩
  constructor
  case fits => trivial
  case utf8 =>
    intro s hs
    cases hs
    decide
  case ordered => exact fun start stop hp => by cases hp
  case sized => decide

theorem binds_stagedText : Runs.Along advance Binds (Server.opened fun _ => 0) stagedText := by
  have htxn : ((Server.opened fun _ => 0).run
      [createT .text, .begin_ .repeatableRead]).txns[0]? =
        some { snapshot := 1, isolation := .repeatableRead } := by
    decide
  have hschema : ((Server.opened fun _ => 0).run
      [createT .text, .begin_ .repeatableRead]).engine.catalog.resolve [116] 1 =
        some ⟨1, [⟨[105], .int4, by decide⟩, ⟨[118], .text, by decide⟩], none⟩ := by
    decide
  refine ⟨trivial, trivial, fun txn hi dml hdml => ?_, trivial⟩
  have htxn' := htxn.symm.trans hi
  cases htxn'
  rw [List.mem_singleton.1 hdml]
  intro schema hresolve
  have hschema' := hschema.symm.trans hresolve
  cases hschema'
  exact ⟨.cons isCell_x .nil, fun hvalid => by cases hvalid⟩

/-- No integer is stored as one byte. -/
theorem not_isCell_x : ¬ IsCell .int8 (some [120]) := by
  rintro ⟨value, hvalue, hty⟩
  obtain ⟨v, rfl, hv⟩ := Option.map_eq_some_iff.1 hvalue.symm
  obtain ⟨hint, -⟩ := hty v rfl
  cases v with
  | int8 x =>
    have hlen := congrArg List.length hv
    rw [show (ScalarValue.int8 x).encode = i64ToLeBytes x from rfl,
      ScalarValue.length_i64ToLeBytes] at hlen
    cases hlen
  | _ => cases hint

theorem writes_reach_their_incarnation_stagedText :
    Runs.Along advance AppliesToIncarnation (Server.opened fun _ => 0) (stagedText ++ [.commit 0]) ∧
      Runs.Along advance KeepsThePast (Server.opened fun _ => 0) (stagedText ++ [.commit 0]) ∧
      ((Server.opened fun _ => 0).run (stagedText ++ [.commit 0])).engine.RowsTyped := by
  have htxn : ((Server.opened fun _ => 0).run stagedText).txns[0]? =
      some { snapshot := 1, isolation := .repeatableRead, staged := [(insertX, 1)] } := by
    decide +kernel
  have hopen : ((Server.opened fun _ => 0).run stagedText).engine.catalog.openVersion [116] =
      some ⟨1, systemTimeOpen,
        ⟨1, [⟨[105], .int4, by decide⟩, ⟨[118], .text, by decide⟩], none⟩⟩ := by
    decide +kernel
  refine writes_reach_their_incarnation (Runs.along_append.2 ⟨binds_stagedText, trivial, trivial⟩)
    ⟨trivial, trivial, trivial, fun txn hi => ?_, trivial⟩
  have htxn' := htxn.symm.trans hi
  cases htxn'
  refine ⟨fun b hb cur hcur => ?_, ownRows_of_rows _ _ [116] [⟨[1], [some [120]]⟩] []⟩
  rw [List.mem_singleton.1 hb] at hcur ⊢
  have hcur' := hopen.symm.trans hcur
  cases hcur'
  exact le_rfl

/-- **A row in another table's columns**: the commit succeeds, and the text is stored in the column
of integers. -/
theorem insert_into_another :
    Runs.Along advance Binds (Server.opened fun _ => 0) (recreatedT ++ [.commit 0]) ∧
      ¬ Runs.Along advance AppliesToIncarnation (Server.opened fun _ => 0)
        (recreatedT ++ [.commit 0]) ∧
      ¬ ((Server.opened fun _ => 0).run (recreatedT ++ [.commit 0])).engine.RowsTyped := by
  refine ⟨Runs.along_append.2 ⟨Runs.along_append.2 ⟨binds_stagedText, trivial, trivial, trivial⟩,
    trivial, trivial⟩, fun halong => ?_, fun htyped => ?_⟩
  · have hcommit : AppliesToIncarnation ((Server.opened fun _ => 0).run recreatedT) (.commit 0) :=
      halong.at_split.1
    have hok : (((Server.opened fun _ => 0).run recreatedT).step (.commit 0)).2 = .ok () := by
      decide +kernel
    have happlied :
        (insertX, 1) ∈ ((Server.opened fun _ => 0).run recreatedT).applied (.commit 0) := by
      decide +kernel
    have hids : ((Server.opened fun _ => 0).run recreatedT).engine.boundId [116] 1 ≠
        ((Server.opened fun _ => 0).run recreatedT).engine.liveId [116] := by
      decide +kernel
    exact hids (hcommit hok _ happlied).2
  · have hread : (((Server.opened fun _ => 0).run
        (recreatedT ++ [.commit 0])).engine.tables[([116] : Name)]?.map fun st =>
          (st.validTime, (st.engine.asOf [1] 6).map fun v => (v.sysFrom, v.payload))) =
            some (false, some (4, some [120])) := by
      decide +kernel
    have hschema : (((Server.opened fun _ => 0).run
        (recreatedT ++ [.commit 0])).engine.catalog.resolve [116] 4).map
          TableSchema.valueTypes = some [.int8] := by
      decide +kernel
    obtain ⟨st, hst, hread⟩ := Option.map_eq_some_iff.1 hread
    rw [Prod.mk.injEq] at hread
    obtain ⟨hpolicy, hread⟩ := hread
    obtain ⟨v, hv, hread⟩ := Option.map_eq_some_iff.1 hread
    rw [Prod.mk.injEq] at hread
    obtain ⟨raw, hraw, hfrom, hpayload, -⟩ := Engine.contains_asOf hv
    obtain ⟨schema, hresolve, cells, hcells, hdecode⟩ := htyped _ st raw hst hraw
    rw [hfrom, hread.1] at hresolve
    rw [hresolve, Option.map_some, Option.some.injEq] at hschema
    rw [hschema, hpolicy, hpayload, hread.2] at hdecode
    cases hdecode
    rw [hschema] at hcells
    cases hcells with
    | cons hcell _ => exact not_isCell_x hcell

end SteleDb
