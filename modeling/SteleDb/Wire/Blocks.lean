import SteleDb.Wire.Connection

/-!
# Errors and transaction blocks

An error inside a block is to abort it: the block's writes are then committed only if the client
goes back to a savepoint from before the error, and until it does, or ends the block, nothing reads
or writes a table.  Simple queries and `COPY` keep to this.  The extended protocol does not: its
messages report an error without aborting the block, and so does a `Query` without its terminator;
and `Describe` of a portal runs its statement in an aborted block too.

`orderly_run` says that nothing else goes wrong: a run without such messages, on an engine that the
other connections may change between any two of its steps, keeps to the rules.
-/

namespace SteleDb

namespace Wire

/-- The step wrote an error. -/
def Served.WritesError (r : Served) : Prop := ∃ e, Reply.error e ∈ r.replies

/-- `ReadyForQuery`. -/
def Reply.isReady : Reply → Bool
  | .readyForQuery _ => true
  | _ => false

/-- The statement looks at tables. -/
def Statement.readsTables : Statement → Bool
  | .engine (.body (.query _)) => true
  | .engine (.explain ..) => true
  | _ => false

namespace Conn

variable (c : Conn) (s : SessionEngine)

/-! ### The rules -/

/-- The statement that the step runs. -/
def nextControl : Action → Option TxnControl
  | .advance =>
    match c.advances, c.batch with
    | true, some (.control ctl :: _) => some ctl
    | _, _ => none
  | .receive _ => none

/-- The step is a `COMMIT`. -/
def isCommit (a : Action) : Prop := c.nextControl a = some .commit

/-- The step is a `ROLLBACK TO` the savepoint. -/
def rollsBackTo (a : Action) (name : Name) : Prop := c.nextControl a = some (.rollbackTo name)

/-- A step, other than `COMMIT`, that meets an error in a block. -/
def ErrsIn (txn : SessionTransaction) (t : Turn) : Prop :=
  c.txn = .active txn ∧ ¬ c.isCommit t.action ∧ (c.serve t).WritesError

/-- The engine with other table data. -/
def withTables (s : SessionEngine) (tables : OrdMap Name TableState) : SessionEngine :=
  { s with tables }

/-- The step leaves the engine as it is, but for snapshots taken and given back, and does the same
whatever is in the tables. -/
def LeavesTablesAlone (t : Turn) : Prop :=
  (c.serve t).engine =
      { t.engine with
        clock := (c.serve t).engine.clock
        openSnapshots := (c.serve t).engine.openSnapshots } ∧
    ∀ tables : OrdMap Name TableState, tables.keys = t.engine.tables.keys →
      c.step (withTables t.engine tables) t.action =
        { c.serve t with engine := withTables (c.serve t).engine tables }

/-- A run in which an error inside a block aborts it. -/
structure ErrorsAbort (c : Conn) (turns : List Turn) : Prop where
  /-- After an error in a block the block is aborted, and the next `ReadyForQuery` says so. -/
  aborts : ∀ pre t post, turns = pre ++ t :: post → ∀ txn, (Runs.after next c pre).ErrsIn txn t →
    (∃ txn', (Runs.after next c (pre ++ [t])).txn = .failed txn') ∧
      ∀ r, ((Runs.after next c (pre ++ [t])).transcript post).find? Reply.isReady = some r →
        r = .readyForQuery 'E'
  /-- A later `COMMIT` that finds a block open comes after the end of the block with the error, or
  after a `ROLLBACK TO` a savepoint that was there at the error. -/
  commits : ∀ pre t mid u post, turns = pre ++ t :: mid ++ u :: post →
    ∀ txn, (Runs.after next c pre).ErrsIn txn t →
      ∀ txn', (Runs.after next c (pre ++ t :: mid)).txn = .active txn' →
        (Runs.after next c (pre ++ t :: mid)).isCommit u.action →
        ∃ mid₁ v mid₂, mid = mid₁ ++ v :: mid₂ ∧
          ((Runs.after next c (pre ++ t :: mid₁ ++ [v])).txn = .idle ∨
            ∃ name, (Runs.after next c (pre ++ t :: mid₁)).rollsBackTo v.action name ∧
              (txn.savepointsUpTo name).isSome)
  /-- Nothing looks at the tables from inside an aborted block. -/
  leavesTablesAlone : ∀ pre t post, turns = pre ++ t :: post →
    ∀ txn, (Runs.after next c pre).txn = .failed txn → (Runs.after next c pre).LeavesTablesAlone t

/-! ### Messages that break them -/

/-- The portal's statement is refused, or its formats are. -/
def portalRefused (name : Name) (portal : PortalEntry) (stmt : Statement) : Bool :=
  match (c.ensureExecuted s name portal stmt).2.2 with
  | .error _ => true
  | .ok e => !validateFormats portal.resultFormats e.columnCount

/-- The message is refused by a handler that does not abort the block. -/
def refused : Message → Bool
  | .query .unterminated => true
  | .parse name query _ => (name ≠ [] && name ∈ c.prepared) || !query.isOk
  | .bind _ statement paramFormats params _ =>
    match c.prepared[statement]? with
    | none => true
    | some prepared => !(bindStatement prepared paramFormats params).isOk
  | .describeStatement name =>
    match c.prepared[name]? with
    | none => true
    | some ⟨none, _⟩ => false
    | some ⟨some template, _⟩ => !(c.describeStatementColumns s template.unbound).2.isOk
  | .describePortal name =>
    match c.portals[name]? with
    | none => true
    | some portal =>
      match portal.stmt with
      | none => false
      | some stmt => stmt.returnsRows && c.portalRefused s name portal stmt
  | .execute name _ =>
    match c.portals[name]? with
    | none => true
    | some portal =>
      match portal.stmt with
      | none => false
      | some (.copyIn _) => false
      | some stmt => c.portalRefused s name portal stmt
  | _ => false

/-- The message describes a portal whose statement looks at tables and has not run. -/
def runsRead : Message → Bool
  | .describePortal name =>
    match c.portals[name]? with
    | some ⟨some stmt, none, _⟩ => stmt.readsTables
    | _ => false
  | _ => false

/-- No step of the extended protocol, nor a `Query` without its terminator, is refused inside a
block, and inside an aborted one no portal that reads tables is described before it has run. -/
def orderly : Action → Bool
  | .advance => true
  | .receive m =>
    !c.serves m ||
      match c.txn with
      | .idle => true
      | .active _ => !c.refused s m
      | .failed _ => !c.runsRead m

end Conn

/-! ### What a statement does to its block -/

theorem startStatement_savepoints (s : SessionEngine) (txn : SessionTransaction) :
    (s.startStatement txn).2.savepoints = txn.savepoints := by
  unfold SessionEngine.startStatement
  cases txn.isolation <;> rfl

theorem stageDml_savepoints (s : SessionEngine) (txn : SessionTransaction) (d : Dml) :
    (stageDml s txn d).1.savepoints = txn.savepoints := by
  unfold stageDml
  cases bindDml s d txn.snapshot (txn.staged.map Prod.fst) with
  | error e => rfl
  | ok stmt =>
    simp only [SessionEngine.stageDml]
    cases s.refuseIfCommitPoisoned with
    | error e => rfl
    | ok _ => cases s.checkDml txn.snapshot stmt.writes <;> rfl

theorem executeCommandInTxn_savepoints (s : SessionEngine) (txn : SessionTransaction)
    (cmd : SessionEngine.Command) :
    (s.executeCommandInTxn txn cmd).2.1.savepoints = txn.savepoints := by
  have hstart := startStatement_savepoints s txn
  unfold SessionEngine.executeCommandInTxn
  generalize s.startStatement txn = started at hstart ⊢
  obtain ⟨s₁, txn₁⟩ := started
  simp only at hstart ⊢
  obtain ⟨s₂, r⟩ := s₁.applyCommand cmd
  cases r <;> exact hstart

theorem executeBodyInTxn_savepoints (s : SessionEngine) (txn : SessionTransaction)
    (time : SessionTime) (b : Body) :
    (executeBodyInTxn s txn time b).2.1.savepoints = txn.savepoints := by
  have hstart := startStatement_savepoints s txn
  cases b with
  | query q => exact hstart
  | dml d => exact (stageDml_savepoints _ _ d).trans hstart
  | ddl stmt => exact executeCommandInTxn_savepoints s txn (.ddl stmt)
  | badDdl => exact hstart
  | other => exact hstart

/-- A statement does not touch the savepoints of its block. -/
theorem executeInTxn_savepoints (s : SessionEngine) (txn : SessionTransaction) (time : SessionTime)
    (stmt : EngineStatement) :
    (executeInTxn s txn time stmt).2.1.savepoints = txn.savepoints := by
  cases stmt with
  | body b => exact executeBodyInTxn_savepoints s txn time b
  | admin cmd => exact executeCommandInTxn_savepoints s txn (.admin cmd)
  | explain analyze inner lines =>
    cases analyze with
    | false => rfl
    | true =>
      have hinner := executeBodyInTxn_savepoints s txn time inner
      simp only [executeInTxn]
      generalize executeBodyInTxn s txn time inner = run at hinner ⊢
      obtain ⟨s', txn', r⟩ := run
      cases r <;> exact hinner

namespace Conn

variable {c : Conn} {s : SessionEngine} {txn : SessionTransaction} {turns : List Turn}

/-- The block is aborted, and nothing is served until `ReadyForQuery` has said so. -/
def Latched (c : Conn) : Prop :=
  c.closed = true ∨ (∃ txn, c.txn = .failed txn) ∧ c.copy = none ∧
    (c.batch = some [] ∨ c.batch = none ∧ c.skipUntilSync = true)

/-- If the step wrote an error, the block is aborted, with the savepoints it had. -/
def AbortsOnError (txn : SessionTransaction) (r : Served) : Prop :=
  r.WritesError →
    (∃ txn', r.conn.txn = .failed txn' ∧ txn'.savepoints = txn.savepoints) ∧ r.conn.Latched

theorem abortsOnError_of_no_error {r : Served} (h : ∀ e, Reply.error e ∉ r.replies) :
    AbortsOnError txn r := by
  intro hr
  obtain ⟨e, he⟩ := hr
  exact absurd he (h e)

theorem abort_abortsOnError {txn' : SessionTransaction} (htxn : c.txn = .active txn')
    (hsp : txn'.savepoints = txn.savepoints) (hcopy : c.copy = none) (e : WireError) :
    AbortsOnError txn (c.abort s e) := by
  intro _
  have hfailed : (c.abort s e).conn.txn = .failed txn' := by simp [abort, htxn, ConnTxn.markFailed]
  exact ⟨⟨txn', hfailed, hsp⟩, .inr ⟨⟨txn', hfailed⟩, hcopy, .inl rfl⟩⟩

theorem copyFailed_abortsOnError {txn' : SessionTransaction} (htxn : c.txn = .active txn')
    (hsp : txn'.savepoints = txn.savepoints) (e : WireError) :
    AbortsOnError txn (c.copyFailed s e) := by
  intro _
  have hfailed : (c.copyFailed s e).conn.txn = .failed txn' := by
    simp [copyFailed, htxn, ConnTxn.markFailed]
  refine ⟨⟨txn', hfailed, hsp⟩, .inr ⟨⟨txn', hfailed⟩, rfl, ?_⟩⟩
  -- a simple query drops its other statements, `Execute` all messages until `Sync`
  cases hb : c.batch with
  | none => exact .inr (by simp [copyFailed, hb])
  | some stmts => exact .inl (by simp [copyFailed, hb])

theorem error_notMem_outcomeReply (o : Outcome) (e : WireError) :
    Reply.error e ∉ outcomeReply o := by
  cases o <;> simp [outcomeReply]

/-- A statement that ran in a block. -/
theorem reply_abortsOnError {txn' : SessionTransaction} {r : Except StatementError Outcome}
    (hsp : txn'.savepoints = txn.savepoints) (hcopy : c.copy = none) :
    AbortsOnError txn (c.reply (s, .active txn', r)) := by
  cases r with
  | error e =>
    exact abort_abortsOnError (c := { c with txn := .active txn' }) rfl hsp hcopy _
  | ok o => exact abortsOnError_of_no_error (error_notMem_outcomeReply o)

theorem runQuery_active (htxn : c.txn = .active txn) (stmt : EngineStatement) :
    ∃ s' txn' r, c.runQuery s stmt = (s', .active txn', r) ∧
      txn'.savepoints = txn.savepoints := by
  have hsp := executeInTxn_savepoints (s.setPrincipal c.principal) txn c.time stmt
  simp only [runQuery, htxn]
  generalize executeInTxn (s.setPrincipal c.principal) txn c.time stmt = run at hsp ⊢
  obtain ⟨s', txn', r⟩ := run
  exact ⟨s', txn', r, rfl, hsp⟩

theorem runDdl_active (htxn : c.txn = .active txn) (stmt : SessionEngine.DdlStatement) :
    ∃ s' txn' r, c.runDdl s stmt = (s', .active txn', r) ∧
      txn'.savepoints = txn.savepoints := by
  unfold runDdl
  obtain ⟨s', r⟩ := runCommand (s.setPrincipal c.principal) (.ddl stmt)
  cases r with
  | error e => exact ⟨s', txn, .error e, by rw [htxn], rfl⟩
  | ok o =>
    rw [htxn]
    exact ⟨_, _, _, rfl, rfl⟩

theorem startCopy_abortsOnError (htxn : c.txn = .active txn) (stmt : CopyStatement) :
    AbortsOnError txn (c.startCopy s stmt) := by
  unfold startCopy
  rw [htxn]
  simp only
  cases copyShape s stmt txn.snapshot with
  | error e => exact copyFailed_abortsOnError htxn rfl _
  | ok _ => exact abortsOnError_of_no_error (by simp)

/-! ### Errors in a block -/

theorem runControl_abortsOnError {ctl : TxnControl} (htxn : c.txn = .active txn)
    (hcopy : c.copy = none) (hctl : ctl ≠ .commit) : AbortsOnError txn (c.runControl s ctl) := by
  cases ctl with
  | begin_ isolation =>
    exact abortsOnError_of_no_error (by simp [runControl, runBegin, htxn, complete])
  | setTransaction isolation =>
    simp only [runControl, runSetTransaction, htxn]
    cases isolation with
    | error _ => exact abort_abortsOnError htxn rfl hcopy _
    | ok level => exact abortsOnError_of_no_error (by simp [complete])
  | commit => exact absurd rfl hctl
  | rollback => exact abortsOnError_of_no_error (by simp [runControl, runRollback, complete])
  | savepoint name =>
    exact abortsOnError_of_no_error (by simp [runControl, runSavepoint, htxn, complete])
  | release name =>
    simp only [runControl, runRelease, htxn]
    split
    · exact abortsOnError_of_no_error (by simp [complete])
    · exact abort_abortsOnError htxn rfl hcopy _
  | rollbackTo name =>
    simp only [runControl, runRollbackTo, htxn, rollbackBlockTo]
    split
    · exact abortsOnError_of_no_error (by simp [complete])
    · exact fun _ => ⟨⟨txn, rfl, rfl⟩, .inr ⟨⟨txn, rfl⟩, hcopy, .inl rfl⟩⟩

/-- A statement of a simple query aborts its block if it errs. -/
theorem runLive_abortsOnError {stmt : Statement} (htxn : c.txn = .active txn)
    (hcopy : c.copy = none) (hstmt : stmt ≠ .control .commit) :
    AbortsOnError txn (c.runLive s stmt) := by
  have hquery (stmt : EngineStatement) : AbortsOnError txn (c.reply (c.runQuery s stmt)) := by
    obtain ⟨s', txn', r, hr, hsp⟩ := runQuery_active (s := s) htxn stmt
    rw [hr]
    exact reply_abortsOnError hsp hcopy
  cases stmt with
  | control ctl =>
    refine runControl_abortsOnError htxn hcopy ?_
    rintro rfl
    exact hstmt rfl
  | session cmd =>
    simp only [runLive]
    obtain ⟨s', r⟩ := c.applySessionCommand s cmd
    cases r with
    | error e => exact abort_abortsOnError htxn rfl hcopy _
    | ok _ => exact abortsOnError_of_no_error (by simp [complete])
  | copyIn stmt => exact startCopy_abortsOnError htxn stmt
  | introspection columns rows =>
    exact abortsOnError_of_no_error
      (error_notMem_outcomeReply (.rows columns (introspectionReply s rows)))
  | constant row =>
    exact abortsOnError_of_no_error (error_notMem_outcomeReply (.rows row.length [row]))
  | engine stmt =>
    cases stmt with
    | admin cmd => exact hquery _
    | explain analyze inner lines => exact hquery _
    | body b =>
      cases b with
      | query q => exact hquery _
      | dml d => exact hquery _
      | other => exact hquery _
      | badDdl => exact abort_abortsOnError htxn rfl hcopy _
      | ddl stmt =>
        obtain ⟨s', txn', r, hr, hsp⟩ := runDdl_active (s := s) htxn stmt
        simp only [runLive, hr]
        exact reply_abortsOnError hsp hcopy

theorem runStatement_abortsOnError {stmt : Statement} (htxn : c.txn = .active txn)
    (hcopy : c.copy = none) (hstmt : stmt ≠ .control .commit) :
    AbortsOnError txn (c.runStatement s stmt) := by
  have hlive : AbortsOnError txn (c.runUnlessFailed s stmt) := by
    simp only [runUnlessFailed, htxn]
    exact runLive_abortsOnError htxn hcopy hstmt
  cases stmt with
  | control ctl => exact runLive_abortsOnError htxn hcopy hstmt
  | session cmd => exact hlive
  | copyIn stmt => exact hlive
  | introspection columns rows => exact hlive
  | constant row => exact hlive
  | engine stmt => exact hlive

theorem finishCopy_abortsOnError (htxn : c.txn = .active txn) (stmt : CopyStatement)
    (rows : List (List (Option Bytes))) : AbortsOnError txn (c.finishCopy s stmt rows) := by
  simp only [finishCopy, htxn]
  have hsp : (copyStage (s.setPrincipal c.principal) txn stmt rows).1.savepoints =
      txn.savepoints := by
    unfold copyStage
    split
    · rfl
    · split <;> rfl
  generalize copyStage (s.setPrincipal c.principal) txn stmt rows = staged at hsp ⊢
  obtain ⟨txn', r⟩ := staged
  cases r with
  | error e =>
    exact copyFailed_abortsOnError (c := { c with txn := .active txn' }) rfl hsp _
  | ok _ => exact abortsOnError_of_no_error (by simp)

theorem receiveCopy_abortsOnError (htxn : c.txn = .active txn) (cp : CopyIn) (m : Message) :
    AbortsOnError txn (c.receiveCopy s cp m) := by
  have hclose : AbortsOnError txn (c.close s) := abortsOnError_of_no_error (by simp [close])
  cases m with
  | copyData data =>
    simp only [receiveCopy]
    split
    · exact copyFailed_abortsOnError htxn rfl _
    · exact abortsOnError_of_no_error (by simp)
  | copyDone =>
    simp only [receiveCopy]
    cases cp.stmt.lex cp.data with
    | error _ => exact copyFailed_abortsOnError htxn rfl _
    | ok rows => exact finishCopy_abortsOnError htxn cp.stmt rows
  | copyFail => exact copyFailed_abortsOnError htxn rfl _
  | flush => exact abortsOnError_of_no_error (by simp [receiveCopy])
  | sync => exact abortsOnError_of_no_error (by simp [receiveCopy])
  | terminate => exact abortsOnError_of_no_error (by simp [receiveCopy])
  | query q => exact hclose
  | parse name query paramOids => exact hclose
  | bind portal statement paramFormats params resultFormats => exact hclose
  | describeStatement name => exact hclose
  | describePortal name => exact hclose
  | execute name maxRows => exact hclose
  | closeStatement name => exact hclose
  | closePortal name => exact hclose
  | unsupported => exact hclose

/-- A portal whose statement and formats are accepted is served without an error. -/
theorem runPortal_no_error {name : Name} {portal : PortalEntry} {stmt : Statement} {maxRows : ℤ}
    (h : c.portalRefused s name portal stmt = false) (e : WireError) :
    Reply.error e ∉ (c.runPortal s name portal stmt maxRows).replies := by
  unfold portalRefused at h
  unfold runPortal
  generalize c.ensureExecuted s name portal stmt = run at h ⊢
  obtain ⟨s', c', r⟩ := run
  cases r with
  | error err => cases h
  | ok ex =>
    have hformats : validateFormats portal.resultFormats ex.columnCount = true := by simpa using h
    simp only [hformats, if_true]
    cases ex with
    | completed tag => simp [stream]
    | rows columns rows sent =>
      simp only [stream, List.mem_append, List.mem_map, List.mem_singleton]
      split <;> simp

theorem describeRows_no_error {name : Name} {portal : PortalEntry} {stmt : Statement}
    (h : c.portalRefused s name portal stmt = false) (e : WireError) :
    Reply.error e ∉ (c.describeRows s name portal stmt).replies := by
  unfold portalRefused at h
  unfold describeRows
  generalize c.ensureExecuted s name portal stmt = run at h ⊢
  obtain ⟨s', c', r⟩ := run
  cases r with
  | error err => cases h
  | ok ex =>
    have hformats : validateFormats portal.resultFormats ex.columnCount = true := by simpa using h
    simp [hformats]

/-- `Execute` of a portal that is not refused. -/
theorem executePortal_abortsOnError {name : Name} {maxRows : ℤ} (htxn : c.txn = .active txn)
    (h : c.refused s (.execute name maxRows) = false) :
    AbortsOnError txn (c.executePortal s name maxRows) := by
  unfold executePortal
  unfold refused at h
  cases hp : c.portals[name]? with
  | none => simp [hp] at h
  | some portal =>
    obtain ⟨stmt, executed, formats⟩ := portal
    simp only [hp] at h
    cases stmt with
    | none => exact abortsOnError_of_no_error (by simp)
    | some stmt =>
      cases stmt with
      | copyIn copy => exact startCopy_abortsOnError htxn copy
      | control ctl => exact abortsOnError_of_no_error (runPortal_no_error h)
      | session cmd => exact abortsOnError_of_no_error (runPortal_no_error h)
      | introspection columns rows => exact abortsOnError_of_no_error (runPortal_no_error h)
      | constant row => exact abortsOnError_of_no_error (runPortal_no_error h)
      | engine stmt => exact abortsOnError_of_no_error (runPortal_no_error h)

/-- A message outside copy-in mode that is not refused. -/
theorem handle_abortsOnError {m : Message} (htxn : c.txn = .active txn) (hcopy : c.copy = none)
    (h : c.refused s m = false) : AbortsOnError txn (c.handle s m) := by
  cases m with
  | query q =>
    cases q with
    | unterminated => cases h
    | syntaxError =>
      exact abort_abortsOnError (s := s)
        (c := { c with prepared := c.prepared.erase [], portals := c.portals.erase [] })
        htxn rfl hcopy _
    | statements stmts =>
      cases stmts <;> exact abortsOnError_of_no_error (by simp [handle, handleQuery])
  | parse name query paramOids =>
    simp only [refused, Bool.or_eq_false_iff, Bool.and_eq_false_iff] at h
    obtain ⟨hname, hquery⟩ := h
    have hfresh : ¬ (name ≠ [] ∧ name ∈ c.prepared) := by
      rw [not_and_or]
      simpa using hname
    simp only [handle, handleParse, if_neg hfresh]
    cases query with
    | error _ => cases hquery
    | ok stmt => exact abortsOnError_of_no_error (by simp)
  | bind portal statement paramFormats params resultFormats =>
    simp only [refused] at h
    simp only [handle, handleBind]
    cases hp : c.prepared[statement]? with
    | none => simp [hp] at h
    | some prepared =>
      simp only [hp] at h
      simp only
      cases hb : bindStatement prepared paramFormats params with
      | error e => simp [hb, Except.isOk, Except.toBool] at h
      | ok stmt => exact abortsOnError_of_no_error (by simp)
  | describeStatement name =>
    simp only [refused] at h
    simp only [handle, handleDescribe]
    cases hp : c.prepared[name]? with
    | none => simp [hp] at h
    | some prepared =>
      obtain ⟨stmt, paramOids⟩ := prepared
      cases stmt with
      | none => exact abortsOnError_of_no_error (by simp)
      | some template =>
        simp only [hp] at h
        simp only
        generalize c.describeStatementColumns s template.unbound = run at h ⊢
        obtain ⟨s', r⟩ := run
        cases r with
        | error e => simp [Except.isOk, Except.toBool] at h
        | ok header =>
          refine abortsOnError_of_no_error fun e => ?_
          cases header <;> simp [describedReply]
  | describePortal name =>
    simp only [refused] at h
    simp only [handle, handleDescribePortal]
    cases hp : c.portals[name]? with
    | none => simp [hp] at h
    | some portal =>
      obtain ⟨stmt, executed, formats⟩ := portal
      cases stmt with
      | none => exact abortsOnError_of_no_error (by simp)
      | some stmt =>
        simp only [hp] at h
        simp only
        split
        · rename_i hrows
          rw [hrows, Bool.true_and] at h
          exact abortsOnError_of_no_error (describeRows_no_error h)
        · exact abortsOnError_of_no_error (by simp)
  | execute name maxRows =>
    simp only [handle, handleExecute, htxn]
    exact executePortal_abortsOnError htxn h
  | closeStatement name => exact abortsOnError_of_no_error (by simp [handle])
  | closePortal name => exact abortsOnError_of_no_error (by simp [handle])
  | flush => exact abortsOnError_of_no_error (by simp [handle])
  | sync => exact abortsOnError_of_no_error (by simp [handle])
  | copyData data => exact abortsOnError_of_no_error (by simp [handle, close])
  | copyDone => exact abortsOnError_of_no_error (by simp [handle, close])
  | copyFail => exact abortsOnError_of_no_error (by simp [handle, close])
  | terminate => exact abortsOnError_of_no_error (by simp [handle, close])
  | unsupported => exact abortsOnError_of_no_error (by simp [handle, close])

/-- Every error of an orderly step aborts the block, `COMMIT` apart. -/
theorem step_abortsOnError {a : Action} (htxn : c.txn = .active txn)
    (hord : c.orderly s a = true) (hcommit : ¬ c.isCommit a) :
    AbortsOnError txn (c.step s a) := by
  cases a with
  | advance =>
    show AbortsOnError txn (c.advance s)
    rcases advance_cases c s with h | ⟨-, -, -, h⟩ | ⟨stmt, rest, hadv, hcopy, hb, h⟩
    · rw [h]
      exact abortsOnError_of_no_error (by simp)
    · rw [h]
      exact abortsOnError_of_no_error (by simp)
    · rw [h]
      refine runStatement_abortsOnError (c := { c with batch := some rest }) htxn hcopy ?_
      rintro rfl
      exact hcommit (by rw [isCommit, nextControl, hadv, hb])
  | receive m =>
    show AbortsOnError txn (c.receive s m)
    rcases receive_cases c s m with h | ⟨cp, -, -, h⟩ | ⟨hserves, hcopy, -, -, h⟩
    · rw [h]
      exact abortsOnError_of_no_error (by simp)
    · rw [h]
      exact receiveCopy_abortsOnError htxn cp m
    · rw [h]
      have hrefused : c.refused s m = false := by simpa [orderly, hserves, htxn] using hord
      exact handle_abortsOnError htxn hcopy hrefused

/-! ### Until `ReadyForQuery` -/

/-- A step of a latched connection says nothing, or that the block is aborted. -/
theorem Latched.step (h : c.Latched) (a : Action) :
    (c.step s a).replies.find? Reply.isReady = some (.readyForQuery 'E') ∨
      ((c.step s a).replies.find? Reply.isReady = none ∧ (c.step s a).conn.Latched) := by
  rcases h with hclosed | ⟨⟨txn, htxn⟩, hcopy, hbusy⟩
  · have hidle : c.step s a = ⟨s, c, []⟩ := by
      cases a with
      | advance => simp [Conn.step, advance, hclosed]
      | receive m => simp [Conn.step, receive, hclosed]
    rw [hidle]
    exact .inr ⟨rfl, .inl hclosed⟩
  have hlatched : c.Latched := .inr ⟨⟨txn, htxn⟩, hcopy, hbusy⟩
  cases a with
  | advance =>
    show (c.advance s).replies.find? _ = _ ∨ _
    rcases advance_cases c s with h | ⟨-, -, -, h⟩ | ⟨stmt, rest, -, -, hb, -⟩
    · rw [Conn.step, h]
      exact .inr ⟨rfl, hlatched⟩
    · rw [h, htxn]
      exact .inl rfl
    · rcases hbusy with hb' | ⟨hb', -⟩ <;> rw [hb] at hb' <;> cases hb'
  | receive m =>
    show (c.receive s m).replies.find? _ = _ ∨ _
    rcases receive_cases c s m with h | ⟨cp, -, hcp, -⟩ | ⟨hserves, -, -, hb, h⟩
    · rw [Conn.step, h]
      exact .inr ⟨rfl, hlatched⟩
    · rw [hcopy] at hcp
      cases hcp
    · -- only `Sync` and `Terminate` are served while messages are dropped
      have hskip : c.skipUntilSync = true := by
        rcases hbusy with hb' | ⟨-, hskip⟩
        · rw [hb] at hb'
          cases hb'
        · exact hskip
      have hnever : neverSkipped m = true := by
        simpa [serves, hskip] using (Bool.and_eq_true_iff.1 hserves).2
      rw [Conn.step, h]
      cases m with
      | sync => exact .inl (by rw [handle, htxn]; rfl)
      | terminate => exact .inr ⟨rfl, .inl rfl⟩
      | _ => cases hnever

/-- The first `ReadyForQuery` of a latched connection says that the block is aborted. -/
theorem Latched.transcript (h : c.Latched) (turns : List Turn) {r : Reply}
    (hr : (c.transcript turns).find? Reply.isReady = some r) : r = .readyForQuery 'E' := by
  induction turns generalizing c with
  | nil => cases hr
  | cons t turns ih =>
    rw [Conn.transcript, List.find?_append] at hr
    rcases h.step (s := t.engine) t.action with hready | ⟨hnone, hnext⟩
    · rw [show (c.serve t).replies.find? Reply.isReady = _ from hready] at hr
      exact (Option.some.inj hr).symm
    · rw [show (c.serve t).replies.find? Reply.isReady = _ from hnone] at hr
      exact ih hnext hr

/-! ### Steps of an aborted block -/

theorem executeStmt_failed (htxn : c.txn = .failed txn) (stmt : Statement) :
    (c.executeStmt s stmt).2.1.txn = .failed txn := by
  have hquery (stmt : EngineStatement) : (c.keep (c.runQuery s stmt)).2.1.txn = .failed txn := by
    simp only [runQuery, htxn]
    obtain ⟨s', r⟩ := execute (s.setPrincipal c.principal) c.time stmt
    cases r <;> rfl
  cases stmt with
  | session cmd =>
    simp only [executeStmt]
    obtain ⟨s', r⟩ := c.applySessionCommand s cmd
    cases r <;> exact htxn
  | introspection columns rows => exact htxn
  | constant row => exact htxn
  | control ctl => exact hquery _
  | copyIn stmt => exact hquery _
  | engine stmt =>
    cases stmt with
    | admin cmd => exact hquery _
    | explain analyze inner lines => exact hquery _
    | body b =>
      cases b with
      | query q => exact hquery _
      | dml d => exact hquery _
      | other => exact hquery _
      | badDdl => exact htxn
      | ddl stmt =>
        simp only [executeStmt, runDdl]
        obtain ⟨s', r⟩ := runCommand (s.setPrincipal c.principal) (.ddl stmt)
        cases r <;> simp [keep, htxn]

theorem ensureExecuted_failed (htxn : c.txn = .failed txn) (name : Name) (portal : PortalEntry)
    (stmt : Statement) : (c.ensureExecuted s name portal stmt).2.1.txn = .failed txn := by
  unfold ensureExecuted
  cases portal.executed with
  | some e => exact htxn
  | none =>
    have hrun := executeStmt_failed (s := s) htxn stmt
    simp only
    generalize c.executeStmt s stmt = run at hrun ⊢
    obtain ⟨s', c', r⟩ := run
    cases r <;> exact hrun

theorem describeRows_failed (htxn : c.txn = .failed txn) (name : Name) (portal : PortalEntry)
    (stmt : Statement) : (c.describeRows s name portal stmt).conn.txn = .failed txn := by
  have hrun := ensureExecuted_failed (s := s) htxn name portal stmt
  unfold describeRows
  generalize c.ensureExecuted s name portal stmt = run at hrun ⊢
  obtain ⟨s', c', r⟩ := run
  cases r with
  | error e => exact hrun
  | ok e =>
    simp only
    split <;> exact hrun

/-- An aborted block stays as it is, ends, or goes back to one of its savepoints. -/
def StaysOrRecovers (c : Conn) (txn : SessionTransaction) (a : Action) (r : Served) : Prop :=
  r.conn.txn = .failed txn ∨ r.conn.txn = .idle ∨
    ∃ name, c.rollsBackTo a name ∧ (txn.savepointsUpTo name).isSome

theorem runControl_staysOrRecovers {c₀ : Conn} {ctl : TxnControl} {a : Action}
    (htxn : c.txn = .failed txn) (hctl : ∀ name, ctl = .rollbackTo name → c₀.rollsBackTo a name) :
    StaysOrRecovers c₀ txn a (c.runControl s ctl) := by
  cases ctl with
  | begin_ isolation => exact .inl (by simp [runControl, runBegin, htxn])
  | setTransaction isolation =>
    exact .inl (by simp [runControl, runSetTransaction, htxn, stop])
  | commit => exact .inr (.inl (by simp [runControl, runCommit, htxn]))
  | rollback => exact .inr (.inl rfl)
  | savepoint name => exact .inl (by simp [runControl, runSavepoint, htxn, stop])
  | release name => exact .inl (by simp [runControl, runRelease, htxn, stop])
  | rollbackTo name =>
    simp only [runControl, runRollbackTo, htxn, rollbackBlockTo]
    split
    · rename_i hsp
      exact .inr (.inr ⟨name, hctl name rfl, hsp⟩)
    · exact .inl rfl

theorem copyFailed_failed (htxn : c.txn = .failed txn) (e : WireError) :
    (c.copyFailed s e).conn.txn = .failed txn := by
  simp [copyFailed, htxn, ConnTxn.markFailed]

theorem receiveCopy_staysOrRecovers (htxn : c.txn = .failed txn) (cp : CopyIn) (m : Message)
    (a : Action) : StaysOrRecovers c txn a (c.receiveCopy s cp m) := by
  cases m with
  | copyData data =>
    simp only [receiveCopy]
    split
    · exact .inl (copyFailed_failed htxn _)
    · exact .inl htxn
  | copyDone =>
    simp only [receiveCopy]
    cases cp.stmt.lex cp.data with
    | error _ => exact .inl (copyFailed_failed htxn _)
    | ok rows =>
      simp only [finishCopy, htxn]
      obtain ⟨s', r⟩ := copyApply (s.setPrincipal c.principal) cp.stmt rows
      cases r with
      | error e => exact .inl (copyFailed_failed htxn _)
      | ok _ => exact .inl rfl
  | copyFail => exact .inl (copyFailed_failed htxn _)
  | flush => exact .inl htxn
  | sync => exact .inl htxn
  | terminate => exact .inl htxn
  | _ => exact .inr (.inl rfl)

theorem handle_staysOrRecovers (htxn : c.txn = .failed txn) (m : Message) (a : Action) :
    StaysOrRecovers c txn a (c.handle s m) := by
  cases m with
  | query q =>
    cases q with
    | statements stmts => cases stmts <;> exact .inl htxn
    | unterminated => exact .inl htxn
    | syntaxError => exact .inl (by simp [handle, handleQuery, abort, htxn, ConnTxn.markFailed])
  | parse name query paramOids =>
    simp only [handle, handleParse]
    split
    · exact .inl htxn
    · cases query <;> exact .inl htxn
  | bind portal statement paramFormats params resultFormats =>
    simp only [handle, handleBind]
    cases c.prepared[statement]? with
    | none => exact .inl htxn
    | some prepared =>
      simp only
      cases bindStatement prepared paramFormats params <;> exact .inl htxn
  | describeStatement name =>
    simp only [handle, handleDescribe]
    cases c.prepared[name]? with
    | none => exact .inl htxn
    | some prepared =>
      obtain ⟨stmt, paramOids⟩ := prepared
      cases stmt with
      | none => exact .inl htxn
      | some template =>
        simp only
        obtain ⟨s', r⟩ := c.describeStatementColumns s template.unbound
        cases r <;> exact .inl htxn
  | describePortal name =>
    simp only [handle, handleDescribePortal]
    cases c.portals[name]? with
    | none => exact .inl htxn
    | some portal =>
      obtain ⟨stmt, executed, formats⟩ := portal
      cases stmt with
      | none => exact .inl htxn
      | some stmt =>
        simp only
        split
        · exact .inl (describeRows_failed htxn name _ stmt)
        · exact .inl htxn
  | execute name maxRows => exact .inl (by simp [handle, handleExecute, htxn, failExtended])
  | closeStatement name => exact .inl htxn
  | closePortal name => exact .inl htxn
  | flush => exact .inl htxn
  | sync => exact .inl htxn
  | _ => exact .inr (.inl rfl)

theorem runStatement_staysOrRecovers {stmt : Statement} {a : Action} {rest : List Statement}
    (htxn : c.txn = .failed txn)
    (hstmt : ∀ name, stmt = .control (.rollbackTo name) → c.rollsBackTo a name) :
    StaysOrRecovers c txn a (({ c with batch := some rest } : Conn).runStatement s stmt) := by
  have hrefused : StaysOrRecovers c txn a
      (({ c with batch := some rest } : Conn).runUnlessFailed s stmt) :=
    .inl (by simp [runUnlessFailed, htxn, stop])
  cases stmt with
  | control ctl =>
    refine runControl_staysOrRecovers (c := { c with batch := some rest }) htxn ?_
    rintro name rfl
    exact hstmt name rfl
  | session cmd => exact hrefused
  | copyIn stmt => exact hrefused
  | introspection columns rows => exact hrefused
  | constant row => exact hrefused
  | engine stmt => exact hrefused

/-- A step of an aborted block leaves it aborted, ends it, or goes back to one of its savepoints. -/
theorem step_staysOrRecovers (htxn : c.txn = .failed txn) (a : Action) :
    StaysOrRecovers c txn a (c.step s a) := by
  cases a with
  | advance =>
    show StaysOrRecovers c txn .advance (c.advance s)
    rcases advance_cases c s with h | ⟨-, -, -, h⟩ | ⟨stmt, rest, hadv, -, hb, h⟩
    · rw [h]
      exact .inl htxn
    · rw [h]
      exact .inl htxn
    · rw [h]
      refine runStatement_staysOrRecovers htxn ?_
      rintro name rfl
      rw [rollsBackTo, nextControl, hadv, hb]
  | receive m =>
    show StaysOrRecovers c txn (.receive m) (c.receive s m)
    rcases receive_cases c s m with h | ⟨cp, -, -, h⟩ | ⟨-, -, -, -, h⟩
    · rw [h]
      exact .inl htxn
    · rw [h]
      exact receiveCopy_staysOrRecovers htxn cp m _
    · rw [h]
      exact handle_staysOrRecovers htxn m _

/-! ### Table data and aborted blocks -/

/-- A `COPY` is only under way outside aborted blocks. -/
def CopiesOutsideFailed (c : Conn) : Prop := ∀ txn, c.txn = .failed txn → c.copy = none

theorem copiesOutsideFailed_of_copy (h : c.copy = none) : c.CopiesOutsideFailed := fun _ _ => h

theorem startCopy_copiesOutsideFailed (h : ∀ txn, c.txn ≠ .failed txn) (stmt : CopyStatement) :
    (c.startCopy s stmt).conn.CopiesOutsideFailed := by
  unfold startCopy
  dsimp only
  split
  · exact copiesOutsideFailed_of_copy rfl
  · exact fun txn htxn => absurd htxn (h txn)

theorem runControl_copy (ctl : TxnControl) : (c.runControl s ctl).conn.copy = c.copy := by
  obtain ⟨txn, batch, h⟩ := c.runControl_conn s ctl
  rw [h]

theorem reply_copy (r : SessionEngine × ConnTxn × Except StatementError Outcome) :
    (c.reply r).conn.copy = c.copy := by
  obtain ⟨txn, batch, h⟩ := c.reply_conn r
  rw [h]

theorem runLive_copiesOutsideFailed {stmt : Statement} (hcopy : c.copy = none)
    (h : ∀ txn, c.txn ≠ .failed txn) : (c.runLive s stmt).conn.CopiesOutsideFailed := by
  cases stmt with
  | control ctl => exact copiesOutsideFailed_of_copy ((runControl_copy ctl).trans hcopy)
  | session cmd =>
    simp only [runLive]
    obtain ⟨s', r⟩ := c.applySessionCommand s cmd
    cases r <;> exact copiesOutsideFailed_of_copy hcopy
  | copyIn stmt => exact startCopy_copiesOutsideFailed h stmt
  | introspection columns rows => exact copiesOutsideFailed_of_copy hcopy
  | constant row => exact copiesOutsideFailed_of_copy hcopy
  | engine stmt =>
    cases stmt with
    | admin cmd => exact copiesOutsideFailed_of_copy ((reply_copy _).trans hcopy)
    | explain analyze inner lines => exact copiesOutsideFailed_of_copy ((reply_copy _).trans hcopy)
    | body b =>
      cases b with
      | badDdl => exact copiesOutsideFailed_of_copy hcopy
      | ddl stmt => exact copiesOutsideFailed_of_copy ((reply_copy _).trans hcopy)
      | query q => exact copiesOutsideFailed_of_copy ((reply_copy _).trans hcopy)
      | dml d => exact copiesOutsideFailed_of_copy ((reply_copy _).trans hcopy)
      | other => exact copiesOutsideFailed_of_copy ((reply_copy _).trans hcopy)

theorem runStatement_copiesOutsideFailed {stmt : Statement} (hcopy : c.copy = none) :
    (c.runStatement s stmt).conn.CopiesOutsideFailed := by
  have hlive : (c.runUnlessFailed s stmt).conn.CopiesOutsideFailed := by
    unfold runUnlessFailed
    cases htxn : c.txn with
    | failed txn => exact copiesOutsideFailed_of_copy hcopy
    | active txn => exact runLive_copiesOutsideFailed hcopy (by simp [htxn])
    | idle => exact runLive_copiesOutsideFailed hcopy (by simp [htxn])
  cases stmt with
  | control ctl => exact copiesOutsideFailed_of_copy ((runControl_copy ctl).trans hcopy)
  | session cmd => exact hlive
  | copyIn stmt => exact hlive
  | introspection columns rows => exact hlive
  | constant row => exact hlive
  | engine stmt => exact hlive

theorem executeStmt_copy (stmt : Statement) : (c.executeStmt s stmt).2.1.copy = c.copy := by
  obtain ⟨txn, time, h⟩ := c.executeStmt_conn s stmt
  rw [h]

theorem ensureExecuted_copy (name : Name) (portal : PortalEntry) (stmt : Statement) :
    (c.ensureExecuted s name portal stmt).2.1.copy = c.copy := by
  unfold ensureExecuted
  cases portal.executed with
  | some e => rfl
  | none =>
    have hrun := executeStmt_copy (c := c) (s := s) stmt
    simp only
    generalize c.executeStmt s stmt = run at hrun ⊢
    obtain ⟨s', c', r⟩ := run
    cases r <;> exact hrun

theorem describeRows_copy (name : Name) (portal : PortalEntry) (stmt : Statement) :
    (c.describeRows s name portal stmt).conn.copy = c.copy := by
  have hrun := ensureExecuted_copy (c := c) (s := s) name portal stmt
  unfold describeRows
  generalize c.ensureExecuted s name portal stmt = run at hrun ⊢
  obtain ⟨s', c', r⟩ := run
  cases r with
  | error e => exact hrun
  | ok e =>
    simp only
    split <;> exact hrun

theorem runPortal_copy (name : Name) (portal : PortalEntry) (stmt : Statement) (maxRows : ℤ) :
    (c.runPortal s name portal stmt maxRows).conn.copy = c.copy := by
  have hrun := ensureExecuted_copy (c := c) (s := s) name portal stmt
  unfold runPortal
  generalize c.ensureExecuted s name portal stmt = run at hrun ⊢
  obtain ⟨s', c', r⟩ := run
  cases r with
  | error e => exact hrun
  | ok e =>
    simp only
    split
    · cases e <;> exact hrun
    · exact hrun

theorem executePortal_copiesOutsideFailed {name : Name} {maxRows : ℤ} (hcopy : c.copy = none)
    (h : ∀ txn, c.txn ≠ .failed txn) :
    (c.executePortal s name maxRows).conn.CopiesOutsideFailed := by
  unfold executePortal
  cases c.portals[name]? with
  | none => exact copiesOutsideFailed_of_copy hcopy
  | some portal =>
    obtain ⟨stmt, executed, formats⟩ := portal
    cases stmt with
    | none => exact copiesOutsideFailed_of_copy hcopy
    | some stmt =>
      cases stmt with
      | copyIn stmt => exact startCopy_copiesOutsideFailed h stmt
      | _ => exact copiesOutsideFailed_of_copy ((runPortal_copy _ _ _ _).trans hcopy)

theorem handle_copiesOutsideFailed (hcopy : c.copy = none) (m : Message) :
    (c.handle s m).conn.CopiesOutsideFailed := by
  cases m with
  | query q =>
    cases q with
    | statements stmts => cases stmts <;> exact copiesOutsideFailed_of_copy hcopy
    | unterminated => exact copiesOutsideFailed_of_copy hcopy
    | syntaxError => exact copiesOutsideFailed_of_copy hcopy
  | parse name query paramOids =>
    simp only [handle, handleParse]
    split
    · exact copiesOutsideFailed_of_copy hcopy
    · cases query <;> exact copiesOutsideFailed_of_copy hcopy
  | bind portal statement paramFormats params resultFormats =>
    simp only [handle, handleBind]
    cases c.prepared[statement]? with
    | none => exact copiesOutsideFailed_of_copy hcopy
    | some prepared =>
      simp only
      cases bindStatement prepared paramFormats params <;> exact copiesOutsideFailed_of_copy hcopy
  | describeStatement name =>
    simp only [handle, handleDescribe]
    cases c.prepared[name]? with
    | none => exact copiesOutsideFailed_of_copy hcopy
    | some prepared =>
      obtain ⟨stmt, paramOids⟩ := prepared
      cases stmt with
      | none => exact copiesOutsideFailed_of_copy hcopy
      | some template =>
        simp only
        obtain ⟨s', r⟩ := c.describeStatementColumns s template.unbound
        cases r <;> exact copiesOutsideFailed_of_copy hcopy
  | describePortal name =>
    simp only [handle, handleDescribePortal]
    cases c.portals[name]? with
    | none => exact copiesOutsideFailed_of_copy hcopy
    | some portal =>
      obtain ⟨stmt, executed, formats⟩ := portal
      cases stmt with
      | none => exact copiesOutsideFailed_of_copy hcopy
      | some stmt =>
        simp only
        split
        · exact copiesOutsideFailed_of_copy ((describeRows_copy _ _ _).trans hcopy)
        · exact copiesOutsideFailed_of_copy hcopy
  | execute name maxRows =>
    simp only [handle, handleExecute]
    cases htxn : c.txn with
    | failed txn => exact copiesOutsideFailed_of_copy hcopy
    | active txn => exact executePortal_copiesOutsideFailed hcopy (by simp [htxn])
    | idle => exact executePortal_copiesOutsideFailed hcopy (by simp [htxn])
  | _ => exact copiesOutsideFailed_of_copy (by first | exact hcopy | rfl)

theorem receiveCopy_copiesOutsideFailed (h : ∀ txn, c.txn ≠ .failed txn) (cp : CopyIn)
    (m : Message) : (c.receiveCopy s cp m).conn.CopiesOutsideFailed := by
  cases m with
  | copyData data =>
    simp only [receiveCopy]
    split
    · exact copiesOutsideFailed_of_copy rfl
    · exact fun txn htxn => absurd htxn (h txn)
  | copyDone =>
    simp only [receiveCopy]
    cases cp.stmt.lex cp.data with
    | error _ => exact copiesOutsideFailed_of_copy rfl
    | ok rows =>
      unfold finishCopy
      cases c.txn with
      | active txn =>
        simp only
        obtain ⟨txn', r⟩ := copyStage (s.setPrincipal c.principal) txn cp.stmt rows
        cases r <;> exact copiesOutsideFailed_of_copy rfl
      | idle =>
        simp only
        obtain ⟨s', r⟩ := copyApply (s.setPrincipal c.principal) cp.stmt rows
        cases r <;> exact copiesOutsideFailed_of_copy rfl
      | failed txn =>
        simp only
        obtain ⟨s', r⟩ := copyApply (s.setPrincipal c.principal) cp.stmt rows
        cases r <;> exact copiesOutsideFailed_of_copy rfl
  | flush => exact fun txn htxn => absurd htxn (h txn)
  | sync => exact fun txn htxn => absurd htxn (h txn)
  | _ => exact copiesOutsideFailed_of_copy rfl

/-- A `COPY` never runs into an aborted block. -/
theorem CopiesOutsideFailed.step (h : c.CopiesOutsideFailed) (a : Action) :
    (c.step s a).conn.CopiesOutsideFailed := by
  cases a with
  | advance =>
    show (c.advance s).conn.CopiesOutsideFailed
    rcases advance_cases c s with hr | ⟨-, hcopy, -, hr⟩ | ⟨stmt, rest, -, hcopy, -, hr⟩
    · rw [hr]
      exact h
    · rw [hr]
      exact copiesOutsideFailed_of_copy hcopy
    · rw [hr]
      exact runStatement_copiesOutsideFailed (c := { c with batch := some rest }) hcopy
  | receive m =>
    show (c.receive s m).conn.CopiesOutsideFailed
    rcases receive_cases c s m with hr | ⟨cp, -, hcp, hr⟩ | ⟨-, hcopy, -, -, hr⟩
    · rw [hr]
      exact h
    · rw [hr]
      refine receiveCopy_copiesOutsideFailed (fun txn htxn => ?_) cp m
      rw [h txn htxn] at hcp
      cases hcp
    · rw [hr]
      exact handle_copiesOutsideFailed hcopy m

/-- The function of the tables does the same on all tables of these names, and only takes or gives
back snapshots. -/
def Quiet (s : SessionEngine) (f : SessionEngine → Served) : Prop :=
  ∃ clock openSnapshots c' replies, ∀ tables : OrdMap Name TableState,
    tables.keys = s.tables.keys →
      f (withTables s tables) = ⟨{ withTables s tables with clock, openSnapshots }, c', replies⟩

theorem leavesTablesAlone_of_quiet {a : Action} (h : Quiet s fun s => c.step s a) :
    c.LeavesTablesAlone ⟨s, a⟩ := by
  obtain ⟨clock, openSnapshots, c', replies, h⟩ := h
  have hself : c.step s a = ⟨{ s with clock, openSnapshots }, c', replies⟩ := h s.tables rfl
  refine ⟨?_, fun tables hkeys => ?_⟩
  · show (c.step s a).engine = _
    simp only [serve]
    rw [hself]
  · have htables : c.step (withTables s tables) a =
        ⟨{ withTables s tables with clock, openSnapshots }, c', replies⟩ := h tables hkeys
    show c.step (withTables s tables) a = _
    rw [htables]
    simp only [serve]
    rw [hself]
    rfl

/-- A step that only changes the connection. -/
theorem quiet_conn {f : SessionEngine → Served} (c' : Conn) (replies : List Reply)
    (h : ∀ s', f s' = ⟨s', c', replies⟩) : Quiet s f :=
  ⟨s.clock, s.openSnapshots, c', replies, fun _ _ => h _⟩

theorem quiet_dropBlock (htxn : c.txn = .failed txn) {f : SessionEngine → Served} (c' : Conn)
    (replies : List Reply) (h : ∀ s', f s' = ⟨c.dropBlock s', c', replies⟩) : Quiet s f := by
  refine ⟨s.clock, s.openSnapshots.erase txn.snapshot, c', replies, fun tables _ => ?_⟩
  rw [h, dropBlock, htxn]
  rfl

theorem runControl_quiet (htxn : c.txn = .failed txn) (ctl : TxnControl) :
    Quiet s fun s => c.runControl s ctl := by
  cases ctl with
  | begin_ isolation =>
    exact quiet_conn _ _ fun s' => by simp only [runControl, runBegin, htxn]; rfl
  | setTransaction isolation =>
    exact quiet_conn _ _ fun s' => by simp only [runControl, runSetTransaction, htxn]; rfl
  | commit =>
    exact quiet_dropBlock htxn _ _ fun s' => by
      simp only [runControl, runCommit, dropBlock, htxn]; rfl
  | rollback => exact quiet_dropBlock htxn _ _ fun s' => rfl
  | savepoint name =>
    exact quiet_conn _ _ fun s' => by simp only [runControl, runSavepoint, htxn]; rfl
  | release name =>
    exact quiet_conn _ _ fun s' => by simp only [runControl, runRelease, htxn]; rfl
  | rollbackTo name =>
    by_cases hsp : (txn.savepointsUpTo name).isSome = true
    · exact quiet_conn _ _ fun s' => by
        simp only [runControl, runRollbackTo, rollbackBlockTo, htxn, if_pos hsp]; rfl
    · exact quiet_conn _ _ fun s' => by
        simp only [runControl, runRollbackTo, rollbackBlockTo, htxn, if_neg hsp]; rfl

theorem runStatement_quiet (htxn : c.txn = .failed txn) (stmt : Statement) :
    Quiet s fun s => c.runStatement s stmt := by
  have hrefused : Quiet s fun s => c.runUnlessFailed s stmt :=
    quiet_conn _ _ fun s' => by simp only [runUnlessFailed, htxn]; rfl
  cases stmt with
  | control ctl => exact runControl_quiet htxn ctl
  | session cmd => exact hrefused
  | copyIn stmt => exact hrefused
  | introspection columns rows => exact hrefused
  | constant row => exact hrefused
  | engine stmt => exact hrefused

theorem authorizeTables_withTables (s : SessionEngine) (data : OrdMap Name TableState)
    (privilege : Privilege) (tables : List Name) :
    authorizeTables (withTables s data) privilege tables = authorizeTables s privilege tables := by
  induction tables with
  | nil => rfl
  | cons table tables ih =>
    rw [authorizeTables, authorizeTables, ih]
    rfl

/-- A description does not look into the tables. -/
theorem describeAt_withTables (s : SessionEngine) (data : OrdMap Name TableState)
    (time : SessionTime) (snapshot : SystemTimeMicros) (stmt : EngineStatement) :
    describeAt (withTables s data) time snapshot stmt = describeAt s time snapshot stmt := by
  cases stmt with
  | explain analyze inner lines => rfl
  | admin cmd => rfl
  | body b =>
    cases b with
    | query q =>
      simp only [describeAt, authorizeTables_withTables]
      rfl
    | dml d => rfl
    | ddl stmt => rfl
    | badDdl => rfl
    | other => rfl

theorem handleDescribe_quiet (htxn : c.txn = .failed txn) (name : Name) :
    Quiet s fun s => c.handleDescribe s name := by
  unfold handleDescribe
  cases c.prepared[name]? with
  | none => exact quiet_conn _ _ fun s' => rfl
  | some prepared =>
    obtain ⟨stmt, paramOids⟩ := prepared
    cases stmt with
    | none => exact quiet_conn _ _ fun s' => rfl
    | some template =>
      simp only
      -- the schema is looked up at the snapshot that the block had
      have hcols (data : OrdMap Name TableState) :
          c.describeStatementColumns (withTables s data) template.unbound =
            (withTables s data, (c.describeStatementColumns s template.unbound).2) := by
        have hengine : c.describe (withTables s data) template.unbound.toEngine =
            (withTables s data, (c.describe s template.unbound.toEngine).2) := by
          simp only [describe, htxn, describeAt_withTables]
        cases hu : template.unbound with
        | introspection columns rows => rfl
        | constant row => rfl
        | _ => rw [hu] at hengine; exact hengine
      cases hr : (c.describeStatementColumns s template.unbound).2 with
      | error e =>
        refine ⟨s.clock, s.openSnapshots, { c with skipUntilSync := true }, [.error (.engine e)],
          fun data _ => ?_⟩
        simp only [hcols, hr]
        rfl
      | ok header =>
        refine ⟨s.clock, s.openSnapshots, c,
          [.parameterDescription paramOids, describedReply header], fun data _ => ?_⟩
        simp only [hcols, hr]
        rfl

/-- The portal's statement has run, or it does not look at tables. -/
theorem ensureExecuted_quiet (c : Conn) (s : SessionEngine) (name : Name) (portal : PortalEntry)
    {stmt : Statement} (hrows : stmt.returnsRows = true)
    (hread : portal.executed = none → stmt.readsTables = false) :
    ∃ c' e, ∀ data : OrdMap Name TableState, data.keys = s.tables.keys →
      c.ensureExecuted (withTables s data) name portal stmt = (withTables s data, c', .ok e) := by
  unfold ensureExecuted
  cases hex : portal.executed with
  | some e => exact ⟨c, e, fun _ _ => rfl⟩
  | none =>
    have hstmt := hread hex
    cases stmt with
    | introspection columns rows =>
      refine ⟨c.setExecuted name portal (.rows columns (introspectionReply s rows) 0),
        .rows columns (introspectionReply s rows) 0, fun data hkeys => ?_⟩
      have hreply : introspectionReply (withTables s data) rows = introspectionReply s rows := by
        show rows s.catalog data.keys s.clock.current = _
        rw [hkeys]
        rfl
      simp only [executeStmt, hreply]
    | constant row => exact ⟨_, _, fun _ _ => rfl⟩
    | control ctl => cases hrows
    | session cmd => cases hrows
    | copyIn stmt => cases hrows
    | engine stmt =>
      cases stmt with
      | admin cmd => cases hrows
      | explain analyze inner lines => cases hstmt
      | body b =>
        cases b with
        | query q => cases hstmt
        | _ => cases hrows

theorem handleDescribePortal_quiet {name : Name} (h : c.runsRead (.describePortal name) = false) :
    Quiet s fun s => c.handleDescribePortal s name := by
  unfold handleDescribePortal
  simp only [runsRead] at h
  cases hp : c.portals[name]? with
  | none => exact quiet_conn _ _ fun s' => rfl
  | some portal =>
    obtain ⟨stmt, executed, formats⟩ := portal
    cases stmt with
    | none => exact quiet_conn _ _ fun s' => rfl
    | some stmt =>
      simp only
      by_cases hrows : stmt.returnsRows = true
      · simp only [if_pos hrows]
        have hread : (⟨some stmt, executed, formats⟩ : PortalEntry).executed = none →
            stmt.readsTables = false := by
          rintro (rfl : executed = none)
          simpa [hp] using h
        obtain ⟨c', e, hrun⟩ :=
          ensureExecuted_quiet c s name ⟨some stmt, executed, formats⟩ hrows hread
        by_cases hf : validateFormats formats e.columnCount = true
        · refine ⟨s.clock, s.openSnapshots, c', [.rowDescription e.columnCount],
            fun data hkeys => ?_⟩
          simp only [describeRows, hrun data hkeys, if_pos hf]
          rfl
        · refine ⟨s.clock, s.openSnapshots, { c' with skipUntilSync := true },
            [.error .protocolViolation], fun data hkeys => ?_⟩
          simp only [describeRows, hrun data hkeys, if_neg hf]
          rfl
      · simp only [if_neg hrows]
        exact quiet_conn _ _ fun s' => rfl

/-- A message served in an aborted block. -/
theorem handle_quiet {m : Message} (htxn : c.txn = .failed txn) (h : c.runsRead m = false) :
    Quiet s fun s => c.handle s m := by
  cases m with
  | query q =>
    cases q with
    | statements stmts => cases stmts <;> exact quiet_conn _ _ fun s' => rfl
    | unterminated => exact quiet_conn _ _ fun s' => rfl
    | syntaxError => exact quiet_conn _ _ fun s' => rfl
  | parse name query paramOids =>
    simp only [handle, handleParse]
    split
    · exact quiet_conn _ _ fun s' => rfl
    · cases query <;> exact quiet_conn _ _ fun s' => rfl
  | bind portal statement paramFormats params resultFormats =>
    simp only [handle, handleBind]
    cases c.prepared[statement]? with
    | none => exact quiet_conn _ _ fun s' => rfl
    | some prepared =>
      simp only
      cases bindStatement prepared paramFormats params <;> exact quiet_conn _ _ fun s' => rfl
  | describeStatement name => exact handleDescribe_quiet htxn name
  | describePortal name => exact handleDescribePortal_quiet h
  | execute name maxRows =>
    exact quiet_conn _ _ fun s' => by simp only [handle, handleExecute, htxn]; rfl
  | closeStatement name => exact quiet_conn _ _ fun s' => rfl
  | closePortal name => exact quiet_conn _ _ fun s' => rfl
  | flush => exact quiet_conn _ _ fun s' => rfl
  | sync => exact quiet_conn _ _ fun s' => rfl
  | _ => exact quiet_dropBlock htxn _ _ fun s' => rfl

/-- An orderly step of an aborted block leaves the tables alone. -/
theorem step_leavesTablesAlone {a : Action} (htxn : c.txn = .failed txn) (hcopy : c.copy = none)
    (hord : c.orderly s a = true) : c.LeavesTablesAlone ⟨s, a⟩ := by
  refine leavesTablesAlone_of_quiet ?_
  cases a with
  | advance =>
    show Quiet s fun s => c.advance s
    unfold advance
    by_cases hrun : c.closed = true ∨ c.copy.isSome = true
    · simp only [if_pos hrun]
      exact quiet_conn _ _ fun s' => rfl
    · simp only [if_neg hrun]
      cases c.batch with
      | none => exact quiet_conn _ _ fun s' => rfl
      | some stmts =>
        cases stmts with
        | nil => exact quiet_conn _ _ fun s' => rfl
        | cons stmt rest => exact runStatement_quiet (c := { c with batch := some rest }) htxn stmt
  | receive m =>
    show Quiet s fun s => c.receive s m
    unfold receive
    simp only [hcopy]
    by_cases hclosed : c.closed = true
    · simp only [if_pos hclosed]
      exact quiet_conn _ _ fun s' => rfl
    by_cases hbatch : c.batch.isSome = true
    · simp only [if_neg hclosed, if_pos hbatch]
      exact quiet_conn _ _ fun s' => rfl
    by_cases hskip : c.skipUntilSync = true ∧ ¬ neverSkipped m = true
    · simp only [if_neg hclosed, if_neg hbatch, if_pos hskip]
      exact quiet_conn _ _ fun s' => rfl
    · simp only [if_neg hclosed, if_neg hbatch, if_neg hskip]
      refine handle_quiet htxn ?_
      have hserves : c.serves m = true := serves_of hclosed hcopy hbatch hskip
      simpa [orderly, hserves, htxn] using hord

/-! ### Orderly runs -/

/-- A run whose steps are all orderly. -/
def OrderlyRun (c : Conn) (turns : List Turn) : Prop :=
  Runs.Along next (fun c t => c.orderly t.engine t.action = true) c turns

instance (c : Conn) (turns : List Turn) : Decidable (c.OrderlyRun turns) :=
  inferInstanceAs (Decidable (Runs.Along ..))

theorem OrderlyRun.copiesOutsideFailed (h : c.OrderlyRun turns) (hc : c.CopiesOutsideFailed) :
    (Runs.after next c turns).CopiesOutsideFailed :=
  Runs.Along.invariant (fun _ t hc _ => hc.step t.action) hc h

/-- What an error leaves behind. -/
theorem after_errsIn {t : Turn} (hord : c.orderly t.engine t.action = true)
    (herr : c.ErrsIn txn t) :
    (∃ txn', (c.next t).txn = .failed txn' ∧ txn'.savepoints = txn.savepoints) ∧
      (c.next t).Latched := by
  obtain ⟨htxn, hcommit, hwrites⟩ := herr
  exact step_abortsOnError htxn hord hcommit hwrites

theorem savepointsUpTo_congr {txn txn' : SessionTransaction}
    (h : txn.savepoints = txn'.savepoints) (name : Name) :
    txn.savepointsUpTo name = txn'.savepointsUpTo name := by
  simp only [SessionTransaction.savepointsUpTo, h]

/-- An error inside a block aborts it, in every orderly run of a connection. -/
theorem orderly_run (principal : Name) (turns : List Turn)
    (h : ({ principal } : Conn).OrderlyRun turns) : ({ principal } : Conn).ErrorsAbort turns where
  aborts := by
    rintro pre t post rfl txn herr
    obtain ⟨hord, -⟩ := Runs.Along.at_split h
    obtain ⟨⟨txn', htxn', -⟩, hlatched⟩ := after_errsIn hord herr
    rw [Runs.after_concat]
    exact ⟨⟨txn', htxn'⟩, fun r hr => hlatched.transcript post hr⟩
  commits := by
    rintro pre t mid u post rfl txn herr txn₂ hactive -
    rw [List.append_assoc, List.cons_append] at h
    obtain ⟨hord, -⟩ := Runs.Along.at_split h
    obtain ⟨⟨txn', htxn', hsp⟩, -⟩ := after_errsIn hord herr
    have hafter (l : List Turn) : Runs.after next { principal } (pre ++ t :: l) =
        Runs.after next ((Runs.after next { principal } pre).next t) l := by
      rw [Runs.after_append, Runs.after_cons]
    -- the block was aborted after the error and is not now, so some step in between changed it
    have hlost : ¬ (Runs.after next ((Runs.after next { principal } pre).next t) mid).txn =
        .failed txn' := by
      rw [← hafter, hactive]
      exact nofun
    obtain ⟨mid₁, v, mid₂, rfl, hkept, hstep⟩ :=
      Runs.exists_first_loss (I := fun c : Conn => c.txn = .failed txn') htxn' hlost
    refine ⟨mid₁, v, mid₂, rfl, ?_⟩
    rw [List.append_assoc, List.cons_append, hafter, hafter, Runs.after_concat]
    rcases step_staysOrRecovers (s := v.engine) hkept v.action with hstay | hidle | ⟨name, hto, hin⟩
    · exact absurd hstay hstep
    · exact .inl hidle
    · rw [savepointsUpTo_congr hsp] at hin
      exact .inr ⟨name, hto, hin⟩
  leavesTablesAlone := by
    rintro pre t post rfl txn htxn
    obtain ⟨hord, -⟩ := Runs.Along.at_split h
    have hcopy := OrderlyRun.copiesOutsideFailed (Runs.along_append.1 h).1
      (copiesOutsideFailed_of_copy rfl) txn htxn
    exact step_leavesTablesAlone htxn hcopy hord

/-! ### A refused `Execute` -/

/-- Steps on a fresh engine. -/
def turnsOf (actions : List Action) : List Turn :=
  actions.map fun action => ⟨.opened fun _ => 0, action⟩

/-- `BEGIN` as a simple query, with the steps that serve it. -/
def beginBlock : List Action :=
  [.receive (.query (.statements [.control (.begin_ (.ok none))])), .advance, .advance]

/-- A statement that errs inside a block aborts it, and `COMMIT` then rolls back. -/
theorem orderly_run_badDdl :
    ({ principal := [97] } : Conn).ErrorsAbort (turnsOf (beginBlock ++
      [.receive (.query (.statements [.engine (.body .badDdl)])), .advance, .advance,
        .receive (.query (.statements [.control .commit])), .advance, .advance])) :=
  orderly_run [97] _ (by decide +kernel)

/-- `Execute` of a portal that does not exist, inside a block: the block stays open. -/
theorem execute_not_errorsAbort :
    ¬ ({ principal := [97] } : Conn).ErrorsAbort
      (turnsOf (beginBlock ++ [.receive (.execute [112] 0)])) := by
  intro h
  have hbegin : (Runs.after next { principal := [97] } (turnsOf beginBlock)).txn =
      .active ((SessionEngine.opened fun _ => 0).beginWithIsolation .repeatableRead).2 := by
    decide +kernel
  have hwrites : ((Runs.after next { principal := [97] } (turnsOf beginBlock)).serve
      ⟨.opened fun _ => 0, .receive (.execute [112] 0)⟩).WritesError :=
    ⟨.invalidCursorName [112], by decide +kernel⟩
  obtain ⟨⟨txn', hfailed⟩, -⟩ := h.aborts (turnsOf beginBlock)
    ⟨.opened fun _ => 0, .receive (.execute [112] 0)⟩ [] rfl _ ⟨hbegin, nofun, hwrites⟩
  have hactive : (Runs.after next { principal := [97] }
      (turnsOf beginBlock ++ [⟨.opened fun _ => 0, .receive (.execute [112] 0)⟩])).txn =
      .active ((SessionEngine.opened fun _ => 0).beginWithIsolation .repeatableRead).2 := by
    decide +kernel
  rw [hactive] at hfailed
  cases hfailed

end Conn

end Wire

end SteleDb
