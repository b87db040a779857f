import SteleDb.Session.Rules
import SteleDb.Wire.Connection

/-!
# Effects and portals

Only `Execute` and `Query` are to have effects, and the statement of one portal at most one of
them, however often the portal is executed and described; the rows it sends are those of that one
run, in order and each once.  Two things stand against this.  `Describe` of a portal runs any
statement that returns rows, and `EXPLAIN ANALYZE` of a write is one.  And `EXPLAIN ANALYZE` binds
its plan after it has run the statement: where the plan is refused, for DDL always and for a write
under `READ COMMITTED` if its table is newer than the block's last snapshot, the portal keeps no
outcome, and the next `Execute` runs the statement again.

`tame_run` says that nothing else does, in runs of one connection on an engine that the others may
change between any two of its steps.
-/

namespace SteleDb

namespace Wire

/-- The session is the same but for the clock, the leases on snapshots and the principal. -/
def SameData (s s' : SessionEngine) : Prop :=
  s' = { s with
    clock := s'.clock
    openSnapshots := s'.openSnapshots
    writePrincipal := s'.writePrincipal }

/-- No more rows were sent than there are. -/
def Executed.WellSent : Executed → Prop
  | .rows _ all sent => sent ≤ all.length
  | .completed _ => True

/-- The writes that a block has buffered. -/
def ConnTxn.buffer : ConnTxn → List (BoundDml × SystemTimeMicros)
  | .idle => []
  | .active txn => txn.staged
  | .failed txn => txn.staged

/-- The statement writes rows or is DDL. -/
def Body.writes : Body → Bool
  | .dml _ => true
  | .ddl _ => true
  | _ => false

/-- The message only prepares, describes or ends something. -/
def Message.isPassive : Message → Bool
  | .parse .. => true
  | .bind .. => true
  | .describeStatement _ => true
  | .describePortal _ => true
  | .closeStatement _ => true
  | .closePortal _ => true
  | .flush => true
  | .sync => true
  | _ => false

namespace Conn

variable (c : Conn) (s : SessionEngine) (p : Name)

/-! ### What is to hold -/

/-- The step changes neither what is committed nor what is buffered.  A message that breaks off a
`COPY` ends the connection and with it the block. -/
def KeepsData (t : Turn) : Prop :=
  SameData t.engine (c.serve t).engine ∧
    ((c.serve t).conn.closed = true ∨ (c.serve t).conn.txn.buffer = c.txn.buffer)

/-- The step serves a message that names the portal. -/
def namesPortal : Action → Bool
  | .receive (.execute name maxRows) => c.serves (.execute name maxRows) && name == p
  | .receive (.describePortal name) => c.serves (.describePortal name) && name == p
  | _ => false

/-- The statement of the portal that the step runs, if it has not run before. -/
def runsPortal : Action → Option Statement
  | .receive (.execute name maxRows) =>
    if c.namesPortal p (.receive (.execute name maxRows)) then
      match c.txn, c.portals[p]? with
      | .failed _, _ => none
      | _, some ⟨some (.copyIn _), _, _⟩ => none
      | _, some ⟨stmt, none, _⟩ => stmt
      | _, _ => none
    else none
  | .receive (.describePortal name) =>
    if c.namesPortal p (.receive (.describePortal name)) then
      match c.portals[p]? with
      | some ⟨some stmt, none, _⟩ => if stmt.returnsRows then some stmt else none
      | _ => none
    else none
  | _ => none

/-- The engine accepts the statement; for `EXPLAIN ANALYZE` of a write, the write. -/
def accepted : Statement → Bool
  | .engine (.explain true (.dml d) _) => (c.runQuery s (.body (.dml d))).2.2.isOk
  | .engine (.explain true (.ddl stmt) _) => (c.runQuery s (.body (.ddl stmt))).2.2.isOk
  | stmt => (c.executeStmt s stmt).2.2.isOk

/-- The step runs the portal's statement, and the engine accepts it. -/
def TakesEffect (t : Turn) : Prop :=
  ∃ stmt, c.runsPortal p t.action = some stmt ∧ c.accepted t.engine stmt = true

/-- The step runs the portal's statement, which returns rows. -/
def Yields (t : Turn) (columns : ℕ) (rows : List Row) : Prop :=
  ∃ stmt, c.runsPortal p t.action = some stmt ∧
    (c.executeStmt t.engine stmt).2.2 = .ok (.rows columns rows 0)

/-- The step is an `Execute` of the portal. -/
def executes : Action → Bool
  | .receive (.execute name maxRows) => c.namesPortal p (.receive (.execute name maxRows))
  | _ => false

/-- The rows among replies. -/
def dataRows (replies : List Reply) : List Row :=
  replies.filterMap fun r => match r with
    | .dataRow row => some row
    | _ => none

/-- The rows that the step sends, if it is an `Execute` of the portal. -/
def fetchedAt (t : Turn) : List Row :=
  if c.executes p t.action then dataRows (c.serve t).replies else []

/-- The step is an `Execute` of the portal that comes to the end of its rows. -/
def DrainedAt (t : Turn) : Prop :=
  c.executes p t.action = true ∧ ∃ tag, Reply.commandComplete tag ∈ (c.serve t).replies

/-- The rows that the `Execute`s of the portal send, one after the other. -/
def fetched (c : Conn) : List Turn → List Row
  | [] => []
  | t :: turns => c.fetchedAt p t ++ (c.next t).fetched turns

/-- Some `Execute` of the portal came to the end of its rows. -/
def Drained (c : Conn) : List Turn → Prop
  | [] => False
  | t :: turns => c.DrainedAt p t ∨ (c.next t).Drained turns

/-- The step binds or closes the portal, or destroys it as the unnamed one. -/
def discards : Action → Bool
  | .receive (.bind portal statement paramFormats params resultFormats) =>
    c.serves (.bind portal statement paramFormats params resultFormats) && portal == p &&
      c.prepared[statement]?.any fun prepared => (bindStatement prepared paramFormats params).isOk
  | .receive (.closePortal name) => c.serves (.closePortal name) && name == p
  | .receive (.query q) => c.serves (.query q) && p == []
  | _ => false

/-- A freshly bound portal, with a statement other than `COPY`. -/
def FreshPortal : Prop :=
  ∃ stmt formats, c.portals[p]? = some ⟨some stmt, none, formats⟩ ∧ ∀ copy, stmt ≠ .copyIn copy

/-- The portal's statement takes effect once at most, and its rows are sent in order and once. -/
structure PortalOnce (c : Conn) (p : Name) (turns : List Turn) : Prop where
  /-- After the statement took effect, no message that names the portal reaches the engine. -/
  once : ∀ pre t mid u post, turns = pre ++ t :: mid ++ u :: post →
    (Runs.after next c pre).TakesEffect p t →
      ¬ (Runs.after next c (pre ++ t :: mid)).TakesEffect p u ∧
        ((Runs.after next c (pre ++ t :: mid)).namesPortal p u.action = true →
          ((Runs.after next c (pre ++ t :: mid)).serve u).engine = u.engine)
  /-- What is sent is a first part of what the statement returned, all of it once an `Execute` has
  come to the end. -/
  rows : ∀ pre t post, turns = pre ++ t :: post →
    ∀ columns rows, (Runs.after next c pre).Yields p t columns rows →
      ∃ sent, fetched p c turns = rows.take sent ∧ (Drained p c turns → sent = rows.length)

/-- Only `Execute` and `Query` have effects, and each portal one at most. -/
structure EffectsByExecute (c : Conn) (turns : List Turn) : Prop where
  /-- The other messages change nothing. -/
  passive : ∀ pre t post, turns = pre ++ t :: post →
    ∀ m, t.action = .receive m → m.isPassive = true → (Runs.after next c pre).KeepsData t
  /-- A portal takes effect once while it stays bound. -/
  portals : ∀ pre mid post, turns = pre ++ mid ++ post →
    ∀ p, (Runs.after next c pre).FreshPortal p →
      Runs.Along next (fun c t => c.discards p t.action = false) (Runs.after next c pre) mid →
        PortalOnce (Runs.after next c pre) p mid

/-! ### What stands against it -/

/-- The plan of the statement can be shown after it has run. -/
def plans : Body → Bool
  | .ddl _ => false
  | .dml d =>
    match c.txn with
    | .active txn => txn.isolation == .repeatableRead || (d.bind s.catalog txn.snapshot).isOk
    | _ => true
  | _ => true

/-- The step does not describe a portal with `EXPLAIN ANALYZE` of a write that has not run, nor
execute one whose plan cannot be shown afterwards. -/
def tame : Action → Bool
  | .receive (.describePortal name) =>
    match c.runsPortal name (.receive (.describePortal name)) with
    | some (.engine (.explain true inner _)) => !inner.writes
    | _ => true
  | .receive (.execute name maxRows) =>
    match c.runsPortal name (.receive (.execute name maxRows)) with
    | some (.engine (.explain true inner _)) => c.plans s inner
    | _ => true
  | _ => true

end Conn

/-! ### Statements that only read -/

theorem SameData.refl (s : SessionEngine) : SameData s s := rfl

theorem SameData.trans {s s' s'' : SessionEngine} (h : SameData s s') (h' : SameData s' s'') :
    SameData s s'' := by
  unfold SameData at *
  rw [h'] at *
  rw [h]

theorem sameData_observe (s : SessionEngine) : SameData s s.observe := rfl

theorem sameData_setPrincipal (s : SessionEngine) (p : Name) : SameData s (s.setPrincipal p) := rfl

theorem sameData_startStatement (s : SessionEngine) (txn : SessionTransaction) :
    SameData s (s.startStatement txn).1 ∧ (s.startStatement txn).2.staged = txn.staged := by
  unfold SessionEngine.startStatement
  cases txn.isolation <;> exact ⟨rfl, rfl⟩

/-- Running a body that does not write, outside a block. -/
theorem sameData_executeBody {b : Body} (h : b.writes = false) (s : SessionEngine)
    (time : SessionTime) : SameData s (executeBody s time b).1 := by
  cases b with
  | dml d => cases h
  | ddl stmt => cases h
  | _ => exact sameData_observe s

/-- Running a body that does not write, in a block. -/
theorem sameData_executeBodyInTxn {b : Body} (h : b.writes = false) (s : SessionEngine)
    (txn : SessionTransaction) (time : SessionTime) :
    SameData s (executeBodyInTxn s txn time b).1 ∧
      (executeBodyInTxn s txn time b).2.1.staged = txn.staged := by
  cases b with
  | dml d => cases h
  | ddl stmt => cases h
  | _ => exact sameData_startStatement s txn

/-- A statement that neither writes nor explains a write by running it. -/
def EngineStatement.readOnly : EngineStatement → Bool
  | .body b => !b.writes
  | .admin _ => false
  | .explain analyze inner _ => !(analyze && inner.writes)

theorem sameData_execute {stmt : EngineStatement} (h : stmt.readOnly = true) (s : SessionEngine)
    (time : SessionTime) : SameData s (execute s time stmt).1 := by
  cases stmt with
  | body b => exact sameData_executeBody (by simpa [EngineStatement.readOnly] using h) s time
  | admin cmd => cases h
  | explain analyze inner lines =>
    cases analyze with
    | false =>
      simp only [execute]
      cases refuseIfPoisoned s <;> exact sameData_observe s
    | true =>
      have hinner := sameData_executeBody (by simpa [EngineStatement.readOnly] using h) s time
        (b := inner)
      simp only [execute]
      generalize executeBody s time inner = run at hinner ⊢
      obtain ⟨s', r⟩ := run
      cases r <;> exact hinner

theorem sameData_executeInTxn {stmt : EngineStatement} (h : stmt.readOnly = true)
    (s : SessionEngine) (txn : SessionTransaction) (time : SessionTime) :
    SameData s (executeInTxn s txn time stmt).1 ∧
      (executeInTxn s txn time stmt).2.1.staged = txn.staged := by
  cases stmt with
  | body b => exact sameData_executeBodyInTxn (by simpa [EngineStatement.readOnly] using h) ..
  | admin cmd => cases h
  | explain analyze inner lines =>
    cases analyze with
    | false => exact ⟨rfl, rfl⟩
    | true =>
      have hinner := sameData_executeBodyInTxn (b := inner)
        (by simpa [EngineStatement.readOnly] using h) s txn time
      simp only [executeInTxn]
      generalize executeBodyInTxn s txn time inner = run at hinner ⊢
      obtain ⟨s', txn', r⟩ := run
      cases r <;> exact hinner

namespace Conn

variable {c : Conn} {s : SessionEngine} {p : Name}

theorem runQuery_keeps {stmt : EngineStatement} (h : stmt.readOnly = true) :
    SameData s (c.runQuery s stmt).1 ∧ (c.runQuery s stmt).2.1.buffer = c.txn.buffer := by
  have hprincipal := sameData_setPrincipal s c.principal
  unfold runQuery
  cases htxn : c.txn with
  | active txn =>
    obtain ⟨hdata, hstaged⟩ := sameData_executeInTxn h (s.setPrincipal c.principal) txn c.time
    exact ⟨hprincipal.trans hdata, hstaged⟩
  | idle => exact ⟨hprincipal.trans (sameData_execute h _ c.time), rfl⟩
  | failed txn => exact ⟨hprincipal.trans (sameData_execute h _ c.time), rfl⟩

/-- A statement that returns rows only reads, unless it is `EXPLAIN ANALYZE` of a write. -/
theorem executeStmt_keeps {stmt : Statement} (hrows : stmt.returnsRows = true)
    (hexplain : ∀ inner lines, stmt = .engine (.explain true inner lines) →
      inner.writes = false) :
    SameData s (c.executeStmt s stmt).1 ∧
      (c.executeStmt s stmt).2.1.txn.buffer = c.txn.buffer := by
  have hquery (stmt : EngineStatement) (h : stmt.readOnly = true) :
      SameData s (c.keep (c.runQuery s stmt)).1 ∧
        (c.keep (c.runQuery s stmt)).2.1.txn.buffer = c.txn.buffer := by
    have hrun := runQuery_keeps (c := c) (s := s) h
    generalize c.runQuery s stmt = run at hrun ⊢
    obtain ⟨s', txn', r⟩ := run
    cases r <;> exact hrun
  cases stmt with
  | introspection columns rows => exact ⟨rfl, rfl⟩
  | constant row => exact ⟨rfl, rfl⟩
  | control ctl => cases hrows
  | session cmd => cases hrows
  | copyIn stmt => cases hrows
  | engine stmt =>
    cases stmt with
    | admin cmd => cases hrows
    | explain analyze inner lines =>
      refine hquery (.explain analyze inner lines) ?_
      cases analyze with
      | false => rfl
      | true => simp [EngineStatement.readOnly, hexplain inner lines rfl]
    | body b =>
      cases b with
      | query q => exact hquery (.body (.query q)) rfl
      | _ => cases hrows

/-! ### Passive messages -/

theorem describeRows_keeps {name : Name} {portal : PortalEntry} {stmt : Statement}
    (hrows : stmt.returnsRows = true)
    (hexplain : portal.executed = none → ∀ inner lines,
      stmt = .engine (.explain true inner lines) → inner.writes = false) :
    SameData s (c.describeRows s name portal stmt).engine ∧
      (c.describeRows s name portal stmt).conn.txn.buffer = c.txn.buffer := by
  have hrun : SameData s (c.ensureExecuted s name portal stmt).1 ∧
      (c.ensureExecuted s name portal stmt).2.1.txn.buffer = c.txn.buffer := by
    unfold ensureExecuted
    cases hex : portal.executed with
    | some e => exact ⟨rfl, rfl⟩
    | none =>
      have hstmt := executeStmt_keeps (c := c) (s := s) hrows (hexplain hex)
      simp only
      generalize c.executeStmt s stmt = run at hstmt ⊢
      obtain ⟨s', c', r⟩ := run
      cases r <;> exact hstmt
  unfold describeRows
  generalize c.ensureExecuted s name portal stmt = run at hrun ⊢
  obtain ⟨s', c', r⟩ := run
  cases r with
  | error e => exact hrun
  | ok e =>
    simp only
    split <;> exact hrun

theorem describe_sameData (stmt : Statement) :
    SameData s (c.describeStatementColumns s stmt).1 := by
  have hengine (stmt : EngineStatement) : SameData s (c.describe s stmt).1 := by
    unfold describe
    cases c.txn <;> exact rfl
  cases stmt with
  | introspection columns rows => exact rfl
  | constant row => exact rfl
  | _ => exact hengine _

theorem handle_keeps {m : Message} (hm : m.isPassive = true) (hserves : c.serves m = true)
    (htame : c.tame s (.receive m) = true) :
    SameData s (c.handle s m).engine ∧ (c.handle s m).conn.txn.buffer = c.txn.buffer := by
  cases m with
  | parse name query paramOids =>
    simp only [handle, handleParse]
    split
    · exact ⟨rfl, rfl⟩
    · cases query <;> exact ⟨rfl, rfl⟩
  | bind portal statement paramFormats params resultFormats =>
    simp only [handle, handleBind]
    cases c.prepared[statement]? with
    | none => exact ⟨rfl, rfl⟩
    | some prepared =>
      simp only
      cases bindStatement prepared paramFormats params <;> exact ⟨rfl, rfl⟩
  | describeStatement name =>
    simp only [handle, handleDescribe]
    cases c.prepared[name]? with
    | none => exact ⟨rfl, rfl⟩
    | some prepared =>
      obtain ⟨stmt, paramOids⟩ := prepared
      cases stmt with
      | none => exact ⟨rfl, rfl⟩
      | some template =>
        have hdata := describe_sameData (c := c) (s := s) template.unbound
        simp only
        generalize c.describeStatementColumns s template.unbound = run at hdata ⊢
        obtain ⟨s', r⟩ := run
        cases r <;> exact ⟨hdata, rfl⟩
  | describePortal name =>
    simp only [handle, handleDescribePortal]
    simp only [tame, runsPortal, namesPortal, hserves, beq_self_eq_true, Bool.and_self, if_true]
      at htame
    cases hp : c.portals[name]? with
    | none => exact ⟨rfl, rfl⟩
    | some portal =>
      obtain ⟨stmt, executed, formats⟩ := portal
      cases stmt with
      | none => exact ⟨rfl, rfl⟩
      | some stmt =>
        simp only
        split
        · rename_i hrows
          refine describeRows_keeps hrows ?_
          rintro (rfl : executed = none) inner lines rfl
          simpa [hp, hrows] using htame
        · exact ⟨rfl, rfl⟩
  | closeStatement name => exact ⟨rfl, rfl⟩
  | closePortal name => exact ⟨rfl, rfl⟩
  | flush => exact ⟨rfl, rfl⟩
  | sync => exact ⟨rfl, rfl⟩
  | _ => cases hm

theorem dropBlock_sameData : SameData s (c.dropBlock s) := by
  unfold dropBlock
  cases c.txn <;> exact rfl

/-- A passive message changes nothing, as long as no write is described into running. -/
theorem keepsData_of_passive {m : Message} (hm : m.isPassive = true)
    (htame : c.tame s (.receive m) = true) : c.KeepsData ⟨s, .receive m⟩ := by
  show SameData s (c.receive s m).engine ∧
    ((c.receive s m).conn.closed = true ∨ (c.receive s m).conn.txn.buffer = c.txn.buffer)
  rcases receive_cases c s m with h | ⟨cp, -, -, h⟩ | ⟨hserves, -, -, -, h⟩
  · rw [h]
    exact ⟨rfl, .inr rfl⟩
  · rw [h]
    cases m with
    | flush => exact ⟨rfl, .inr rfl⟩
    | sync => exact ⟨rfl, .inr rfl⟩
    | parse name query paramOids => exact ⟨dropBlock_sameData, .inl rfl⟩
    | bind portal statement paramFormats params resultFormats =>
      exact ⟨dropBlock_sameData, .inl rfl⟩
    | describeStatement name => exact ⟨dropBlock_sameData, .inl rfl⟩
    | describePortal name => exact ⟨dropBlock_sameData, .inl rfl⟩
    | closeStatement name => exact ⟨dropBlock_sameData, .inl rfl⟩
    | closePortal name => exact ⟨dropBlock_sameData, .inl rfl⟩
    | _ => cases hm
  · rw [h]
    obtain ⟨hdata, hbuffer⟩ := handle_keeps hm hserves htame
    exact ⟨hdata, .inr hbuffer⟩

/-! ### Steps that do not name the portal -/

theorem startCopy_portals (stmt : CopyStatement) :
    (c.startCopy s stmt).conn.portals = c.portals := by
  unfold startCopy
  dsimp only
  split <;> rfl

theorem runLive_portals (stmt : Statement) : (c.runLive s stmt).conn.portals = c.portals := by
  have hreply (r : SessionEngine × ConnTxn × Except StatementError Outcome) :
      (c.reply r).conn.portals = c.portals := by
    obtain ⟨txn, batch, h⟩ := c.reply_conn r
    rw [h]
  cases stmt with
  | control ctl =>
    obtain ⟨txn, batch, h⟩ := c.runControl_conn s ctl
    rw [runLive, h]
  | session cmd =>
    simp only [runLive]
    obtain ⟨s', r⟩ := c.applySessionCommand s cmd
    cases r <;> rfl
  | copyIn stmt => exact startCopy_portals stmt
  | introspection columns rows => rfl
  | constant row => rfl
  | engine stmt =>
    cases stmt with
    | admin cmd => exact hreply _
    | explain analyze inner lines => exact hreply _
    | body b =>
      cases b with
      | badDdl => rfl
      | ddl stmt => exact hreply _
      | query q => exact hreply _
      | dml d => exact hreply _
      | other => exact hreply _

theorem runStatement_portals (stmt : Statement) :
    (c.runStatement s stmt).conn.portals = c.portals := by
  have hlive : (c.runUnlessFailed s stmt).conn.portals = c.portals := by
    unfold runUnlessFailed
    cases c.txn with
    | failed txn => rfl
    | active txn => exact runLive_portals stmt
    | idle => exact runLive_portals stmt
  cases stmt with
  | control ctl => exact runLive_portals (.control ctl)
  | session cmd => exact hlive
  | copyIn stmt => exact hlive
  | introspection columns rows => exact hlive
  | constant row => exact hlive
  | engine stmt => exact hlive

theorem receiveCopy_portals (cp : CopyIn) (m : Message) :
    (c.receiveCopy s cp m).conn.portals = c.portals := by
  cases m with
  | copyData data =>
    simp only [receiveCopy]
    split <;> rfl
  | copyDone =>
    simp only [receiveCopy]
    cases cp.stmt.lex cp.data with
    | error _ => rfl
    | ok rows =>
      unfold finishCopy
      cases c.txn with
      | active txn =>
        simp only
        obtain ⟨txn', r⟩ := copyStage (s.setPrincipal c.principal) txn cp.stmt rows
        cases r <;> rfl
      | idle =>
        simp only
        obtain ⟨s', r⟩ := copyApply (s.setPrincipal c.principal) cp.stmt rows
        cases r <;> rfl
      | failed txn =>
        simp only
        obtain ⟨s', r⟩ := copyApply (s.setPrincipal c.principal) cp.stmt rows
        cases r <;> rfl
  | _ => rfl

theorem setExecuted_of_ne {name : Name} (h : name ≠ p) (portal : PortalEntry) (e : Executed) :
    (c.setExecuted name portal e).portals[p]? = c.portals[p]? :=
  (OrdMap.getElem?_insert ..).trans (if_neg h)

theorem setExecuted_self (portal : PortalEntry) (e : Executed) :
    (c.setExecuted p portal e).portals[p]? = some { portal with executed := some e } :=
  (OrdMap.getElem?_insert ..).trans (if_pos rfl)

theorem ensureExecuted_of_ne {name : Name} (h : name ≠ p) (portal : PortalEntry)
    (stmt : Statement) :
    (c.ensureExecuted s name portal stmt).2.1.portals[p]? = c.portals[p]? := by
  unfold ensureExecuted
  cases portal.executed with
  | some e => rfl
  | none =>
    obtain ⟨txn, time, hc⟩ := c.executeStmt_conn s stmt
    simp only
    generalize c.executeStmt s stmt = run at hc ⊢
    obtain ⟨s', c', r⟩ := run
    obtain rfl : c' = { c with txn, time } := hc
    cases r with
    | error e => rfl
    | ok e => exact setExecuted_of_ne h portal e

theorem describeRows_of_ne {name : Name} (h : name ≠ p) (portal : PortalEntry)
    (stmt : Statement) :
    (c.describeRows s name portal stmt).conn.portals[p]? = c.portals[p]? := by
  have hrun := ensureExecuted_of_ne (c := c) (s := s) h portal stmt
  unfold describeRows
  generalize c.ensureExecuted s name portal stmt = run at hrun ⊢
  obtain ⟨s', c', r⟩ := run
  cases r with
  | error e => exact hrun
  | ok e =>
    simp only
    split <;> exact hrun

theorem runPortal_of_ne {name : Name} (h : name ≠ p) (portal : PortalEntry) (stmt : Statement)
    (maxRows : ℤ) :
    (c.runPortal s name portal stmt maxRows).conn.portals[p]? = c.portals[p]? := by
  have hrun := ensureExecuted_of_ne (c := c) (s := s) h portal stmt
  unfold runPortal
  generalize c.ensureExecuted s name portal stmt = run at hrun ⊢
  obtain ⟨s', c', r⟩ := run
  cases r with
  | error e => exact hrun
  | ok e =>
    simp only
    split
    · cases e with
      | completed tag => exact hrun
      | rows columns rows sent => exact (setExecuted_of_ne h portal _).trans hrun
    · exact hrun

theorem handle_of_not_named {m : Message} (hserves : c.serves m = true)
    (hd : c.discards p (.receive m) = false) (hn : c.namesPortal p (.receive m) = false) :
    (c.handle s m).conn.portals[p]? = c.portals[p]? := by
  cases m with
  | query q =>
    have hp : ([] : Name) ≠ p := by
      simp only [discards, hserves, Bool.true_and, beq_eq_false_iff_ne] at hd
      exact hd.symm
    have herase : (c.portals.erase [])[p]? = c.portals[p]? :=
      (OrdMap.getElem?_erase ..).trans (if_neg hp)
    cases q with
    | statements stmts => cases stmts <;> exact herase
    | unterminated => exact herase
    | syntaxError => exact herase
  | parse name query paramOids =>
    simp only [handle, handleParse]
    split
    · rfl
    · cases query <;> rfl
  | bind portal statement paramFormats params resultFormats =>
    simp only [handle, handleBind]
    cases hprep : c.prepared[statement]? with
    | none => rfl
    | some prepared =>
      simp only
      cases hb : bindStatement prepared paramFormats params with
      | error e => rfl
      | ok stmt =>
        have hp : portal ≠ p := by
          simpa [discards, hserves, hprep, hb, Except.isOk, Except.toBool] using hd
        exact (OrdMap.getElem?_insert ..).trans (if_neg hp)
  | describeStatement name =>
    simp only [handle, handleDescribe]
    cases c.prepared[name]? with
    | none => rfl
    | some prepared =>
      obtain ⟨stmt, paramOids⟩ := prepared
      cases stmt with
      | none => rfl
      | some template =>
        simp only
        obtain ⟨s', r⟩ := c.describeStatementColumns s template.unbound
        cases r <;> rfl
  | describePortal name =>
    have hp : name ≠ p := by simpa [namesPortal, hserves] using hn
    simp only [handle, handleDescribePortal]
    cases c.portals[name]? with
    | none => rfl
    | some portal =>
      obtain ⟨stmt, executed, formats⟩ := portal
      cases stmt with
      | none => rfl
      | some stmt =>
        simp only
        split
        · exact describeRows_of_ne hp _ stmt
        · rfl
  | execute name maxRows =>
    have hp : name ≠ p := by simpa [namesPortal, hserves] using hn
    have hexec : (c.executePortal s name maxRows).conn.portals[p]? = c.portals[p]? := by
      unfold executePortal
      cases c.portals[name]? with
      | none => rfl
      | some portal =>
        obtain ⟨stmt, executed, formats⟩ := portal
        cases stmt with
        | none => rfl
        | some stmt =>
          cases stmt with
          | copyIn stmt => rw [startCopy_portals]
          | _ => exact runPortal_of_ne hp _ _ maxRows
    simp only [handle, handleExecute]
    cases c.txn with
    | failed txn => rfl
    | active txn => exact hexec
    | idle => exact hexec
  | closePortal name =>
    have hp : name ≠ p := by simpa [discards, hserves] using hd
    exact (OrdMap.getElem?_erase ..).trans (if_neg hp)
  | _ => rfl

/-- A step that neither names the portal nor discards it leaves it alone. -/
theorem step_of_not_named {a : Action} (hd : c.discards p a = false)
    (hn : c.namesPortal p a = false) : (c.step s a).conn.portals[p]? = c.portals[p]? := by
  cases a with
  | advance =>
    show (c.advance s).conn.portals[p]? = _
    rcases advance_cases c s with h | ⟨-, -, -, h⟩ | ⟨stmt, rest, -, -, -, h⟩
    · rw [h]
    · rw [h]
    · rw [h, runStatement_portals]
  | receive m =>
    show (c.receive s m).conn.portals[p]? = _
    rcases receive_cases c s m with h | ⟨cp, -, -, h⟩ | ⟨hserves, -, -, -, h⟩
    · rw [h]
    · rw [h, receiveCopy_portals]
    · rw [h]
      exact handle_of_not_named hserves hd hn

/-! ### Sending rows -/

/-- From `e` to `e'` the rows were sent, all that were left if the portal was drained. -/
def Sends : Executed → Executed → List Row → Prop → Prop
  | .rows columns all sent, e', rows, drained =>
    ∃ n, e' = .rows columns all (sent + n) ∧ sent + n ≤ all.length ∧
      rows = (all.drop sent).take n ∧ (drained → sent + n = all.length)
  | .completed tag, e', rows, _ => e' = .completed tag ∧ rows = []

theorem Sends.refl {e : Executed} (h : e.WellSent) : Sends e e [] False := by
  cases e with
  | completed tag => exact ⟨rfl, rfl⟩
  | rows columns all sent => exact ⟨0, rfl, h, by simp, False.elim⟩

theorem Sends.trans {e e' e'' : Executed} {rows rows' : List Row} {d d' : Prop}
    (h : Sends e e' rows d) (h' : Sends e' e'' rows' d') :
    Sends e e'' (rows ++ rows') (d ∨ d') := by
  cases e with
  | completed tag =>
    obtain ⟨rfl, rfl⟩ := h
    exact h'
  | rows columns all sent =>
    obtain ⟨n, rfl, hn, rfl, hd⟩ := h
    obtain ⟨n', rfl, hn', rfl, hd'⟩ := h'
    refine ⟨n + n', by rw [Nat.add_assoc], by omega, ?_, ?_⟩
    · rw [List.take_add, List.drop_drop]
    · rintro (hd₁ | hd₂)
      · have := hd hd₁
        omega
      · have := hd' hd₂
        omega

theorem Sends.wellSent {e e' : Executed} {rows : List Row} {d : Prop} (h : Sends e e' rows d) :
    e'.WellSent := by
  cases e with
  | completed tag =>
    obtain ⟨rfl, -⟩ := h
    trivial
  | rows columns all sent =>
    obtain ⟨n, rfl, hn, -⟩ := h
    exact hn

theorem Sends.congr {e e' : Executed} {rows : List Row} {d d' : Prop} (h : Sends e e' rows d)
    (hd : d' → d) : Sends e e' rows d' := by
  cases e with
  | completed tag => exact h
  | rows columns all sent =>
    obtain ⟨n, he, hn, hrows, hall⟩ := h
    exact ⟨n, he, hn, hrows, fun h' => hall (hd h')⟩

theorem dataRows_map_append (rows : List Row) (r : Reply) (hr : ∀ row, r ≠ .dataRow row) :
    dataRows (rows.map .dataRow ++ [r]) = rows := by
  have hlast : dataRows [r] = [] := by
    cases r with
    | dataRow row => exact absurd rfl (hr row)
    | _ => rfl
  have hmap : dataRows (rows.map .dataRow) = rows := by
    rw [dataRows, List.filterMap_map]
    exact List.filterMap_some
  rw [dataRows, List.filterMap_append]
  rw [show List.filterMap _ (rows.map Reply.dataRow) = rows from hmap,
    show List.filterMap _ [r] = [] from hlast, List.append_nil]

/-- An `Execute` sends the next rows. -/
theorem stream_sends {portal : PortalEntry} {e : Executed} (maxRows : ℤ)
    (hp : c.portals[p]? = some { portal with executed := some e }) (hok : e.WellSent) :
    ∃ e', (c.stream s p portal maxRows e).conn.portals[p]? =
        some { portal with executed := some e' } ∧
      Sends e e' (dataRows (c.stream s p portal maxRows e).replies)
        (∃ tag, Reply.commandComplete tag ∈ (c.stream s p portal maxRows e).replies) := by
  cases e with
  | completed tag => exact ⟨.completed tag, hp, rfl, rfl⟩
  | rows columns all sent =>
    have htake : takeCount maxRows (all.length - sent) ≤ all.length - sent := by
      unfold takeCount
      split <;> omega
    have hsent : sent ≤ all.length := hok
    refine ⟨_, setExecuted_self _ _, takeCount maxRows (all.length - sent), rfl, by omega, ?_, ?_⟩
    · refine dataRows_map_append _ _ fun row => ?_
      split <;> nofun
    · rintro ⟨tag, htag⟩
      simp only [stream, List.mem_append, List.mem_map, reduceCtorEq, and_false, exists_false,
        List.mem_singleton, false_or] at htag
      by_contra hlt
      rw [if_pos (by omega)] at htag
      cases htag

/-! ### Steps that name the portal -/

theorem executeStmt_wellSent {stmt : Statement} {e : Executed}
    (h : (c.executeStmt s stmt).2.2 = .ok e) : e.WellSent := by
  have hkeep (r : SessionEngine × ConnTxn × Except StatementError Outcome)
      (h : (c.keep r).2.2 = .ok e) : e.WellSent := by
    obtain ⟨s', txn', r⟩ := r
    cases r with
    | error err => cases h
    | ok o =>
      obtain rfl : executedOf o = e := by simpa [keep] using h
      cases o with
      | rows columns rows => exact Nat.zero_le _
      | dml => trivial
      | ddl => trivial
  cases stmt with
  | session cmd =>
    simp only [executeStmt] at h
    generalize c.applySessionCommand s cmd = run at h
    obtain ⟨s', r⟩ := run
    cases r with
    | error err => cases h
    | ok _ =>
      cases h
      trivial
  | introspection columns rows =>
    cases h
    exact Nat.zero_le _
  | constant row =>
    cases h
    exact Nat.zero_le _
  | control ctl => exact hkeep _ h
  | copyIn stmt => exact hkeep _ h
  | engine stmt =>
    cases stmt with
    | admin cmd => exact hkeep _ h
    | explain analyze inner lines => exact hkeep _ h
    | body b =>
      cases b with
      | badDdl => cases h
      | ddl stmt => exact hkeep _ h
      | query q => exact hkeep _ h
      | dml d => exact hkeep _ h
      | other => exact hkeep _ h

/-- `Execute` of a portal whose outcome is there. -/
theorem runPortal_sends {portal : PortalEntry} {stmt : Statement} {e : Executed}
    {c' : Conn} {s' : SessionEngine} (maxRows : ℤ)
    (hrun : c.ensureExecuted s p portal stmt = (s', c', .ok e))
    (hp : c'.portals[p]? = some { portal with executed := some e }) (hok : e.WellSent) :
    (c.runPortal s p portal stmt maxRows).engine = s' ∧
      ∃ e', (c.runPortal s p portal stmt maxRows).conn.portals[p]? =
          some { portal with executed := some e' } ∧
        Sends e e' (dataRows (c.runPortal s p portal stmt maxRows).replies)
          (∃ tag, Reply.commandComplete tag ∈ (c.runPortal s p portal stmt maxRows).replies) := by
  unfold runPortal
  rw [hrun]
  simp only
  split
  · refine ⟨?_, stream_sends maxRows hp hok⟩
    cases e <;> rfl
  · refine ⟨rfl, e, hp, ?_⟩
    have hrows : dataRows (c'.failExtended s' .protocolViolation).replies = [] := rfl
    rw [hrows]
    refine (Sends.refl hok).congr ?_
    rintro ⟨tag, htag⟩
    cases htag with
    | tail _ htag => cases htag

/-- `Describe` of a portal whose outcome is there. -/
theorem describeRows_keeps_portal {portal : PortalEntry} {stmt : Statement} {e : Executed}
    {c' : Conn} {s' : SessionEngine}
    (hrun : c.ensureExecuted s p portal stmt = (s', c', .ok e)) :
    (c.describeRows s p portal stmt).engine = s' ∧
      (c.describeRows s p portal stmt).conn.portals[p]? = c'.portals[p]? := by
  unfold describeRows
  rw [hrun]
  simp only
  split <;> exact ⟨rfl, rfl⟩

/-- A step that serves a message naming the portal. -/
theorem serve_of_names {t : Turn} (h : c.namesPortal p t.action = true) :
    (∃ maxRows, t.action = .receive (.execute p maxRows) ∧
      c.serve t = c.handleExecute t.engine p maxRows) ∨
    (t.action = .receive (.describePortal p) ∧ c.serve t = c.handleDescribePortal t.engine p) := by
  obtain ⟨s, a⟩ := t
  have hserve (m : Message) (hserves : c.serves m = true) : c.receive s m = c.handle s m := by
    rcases receive_cases c s m with h | ⟨cp, -, hcp, -⟩ | ⟨-, -, -, -, h⟩
    · simp only [serves, Bool.and_eq_true, Bool.not_eq_true', Bool.or_eq_true] at hserves
      obtain ⟨⟨⟨hclosed, hcopy⟩, hbatch⟩, hskip⟩ := hserves
      simp only [receive, hclosed, Option.isNone_iff_eq_none.1 hcopy,
        Option.isNone_iff_eq_none.1 hbatch]
      rw [if_neg (by simp), if_neg (by simp), if_neg]
      rintro ⟨hs, hm⟩
      rcases hskip with hskip | hskip
      · rw [hs] at hskip
        cases hskip
      · exact hm hskip
    · simp [serves, hcp] at hserves
    · exact h
  cases a with
  | advance => cases h
  | receive m =>
    cases m with
    | execute name maxRows =>
      simp only [namesPortal, Bool.and_eq_true, beq_iff_eq] at h
      obtain ⟨hserves, rfl⟩ := h
      exact .inl ⟨maxRows, rfl, hserve _ hserves⟩
    | describePortal name =>
      simp only [namesPortal, Bool.and_eq_true, beq_iff_eq] at h
      obtain ⟨hserves, rfl⟩ := h
      exact .inr ⟨rfl, hserve _ hserves⟩
    | _ => cases h

theorem executes_of_not_named {a : Action} (h : c.namesPortal p a = false) :
    c.executes p a = false := by
  cases a with
  | advance => rfl
  | receive m =>
    cases m with
    | execute name maxRows => exact h
    | _ => rfl

theorem runsPortal_of_not_named {a : Action} (h : c.namesPortal p a = false) :
    c.runsPortal p a = none := by
  cases a with
  | advance => rfl
  | receive m =>
    cases m with
    | execute name maxRows => simp [runsPortal, h]
    | describePortal name => simp [runsPortal, h]
    | _ => rfl

theorem fetchedAt_of_not_executes {t : Turn} (h : c.executes p t.action = false) :
    c.fetchedAt p t = [] := by
  rw [fetchedAt, h]
  rfl

theorem not_drainedAt_of_not_executes {t : Turn} (h : c.executes p t.action = false) :
    ¬ c.DrainedAt p t := by
  rintro ⟨hex, -⟩
  rw [h] at hex
  cases hex

section Portal

variable {stmt : Statement} {formats : List ℤ} {t : Turn} {turns : List Turn}

/-- `Execute` of a portal that is there. -/
theorem executePortal_eq {executed : Option Executed} {maxRows : ℤ}
    (hp : c.portals[p]? = some ⟨some stmt, executed, formats⟩)
    (hcopy : ∀ copy, stmt ≠ .copyIn copy) :
    c.executePortal s p maxRows = c.runPortal s p ⟨some stmt, executed, formats⟩ stmt maxRows := by
  unfold executePortal
  rw [hp]
  cases stmt with
  | copyIn copy => exact absurd rfl (hcopy copy)
  | _ => rfl

/-- A portal that has run keeps its outcome, and its messages do not reach the engine. -/
theorem executed_step {e : Executed} (hp : c.portals[p]? = some ⟨some stmt, some e, formats⟩)
    (hcopy : ∀ copy, stmt ≠ .copyIn copy) (hok : e.WellSent)
    (hd : c.discards p t.action = false) :
    (∃ e', (c.next t).portals[p]? = some ⟨some stmt, some e', formats⟩ ∧
      Sends e e' (c.fetchedAt p t) (c.DrainedAt p t)) ∧
    (c.namesPortal p t.action = true → (c.serve t).engine = t.engine) ∧
    c.runsPortal p t.action = none := by
  by_cases hn : c.namesPortal p t.action = true
  · have hens : c.ensureExecuted t.engine p ⟨some stmt, some e, formats⟩ stmt =
        (t.engine, c, .ok e) := rfl
    rcases serve_of_names hn with ⟨maxRows, ha, hserve⟩ | ⟨ha, hserve⟩
    · have hruns : c.runsPortal p t.action = none := by
        rw [ha, runsPortal, ← ha, if_pos hn]
        cases c.txn <;> cases stmt <;> simp [hp]
      have hexec : c.executes p t.action = true := by rw [ha] at hn ⊢; exact hn
      -- an aborted block refuses, any other sends the next rows
      by_cases hfailed : ∃ txn, c.txn = .failed txn
      · obtain ⟨txn, htxn⟩ := hfailed
        have hr : c.serve t = c.failExtended t.engine .inFailedTransaction := by
          rw [hserve, handleExecute, htxn]
        refine ⟨⟨e, by rw [next, hr]; exact hp, ?_⟩, fun _ => by rw [hr]; rfl, hruns⟩
        rw [fetchedAt, hexec, if_pos rfl, hr]
        refine (Sends.refl hok).congr ?_
        rintro ⟨-, tag, htag⟩
        rw [hr] at htag
        cases htag with
        | tail _ htag => cases htag
      · have hr : c.serve t =
            c.runPortal t.engine p ⟨some stmt, some e, formats⟩ stmt maxRows := by
          rw [hserve, handleExecute, ← executePortal_eq hp hcopy]
          cases htxn : c.txn with
          | failed txn => exact absurd ⟨txn, htxn⟩ hfailed
          | active txn => rfl
          | idle => rfl
        obtain ⟨hengine, e', hp', hsends⟩ := runPortal_sends maxRows hens hp hok
        refine ⟨⟨e', by rw [next, hr]; exact hp', ?_⟩, fun _ => by rw [hr]; exact hengine, hruns⟩
        rw [fetchedAt, hexec, if_pos rfl, hr]
        refine hsends.congr ?_
        rintro ⟨-, htag⟩
        rwa [hr] at htag
    · have hruns : c.runsPortal p t.action = none := by
        rw [ha, runsPortal, ← ha, if_pos hn, hp]
      have hexec : c.executes p t.action = false := by rw [ha]; rfl
      have hr : (c.serve t).engine = t.engine ∧
          (c.serve t).conn.portals[p]? = some ⟨some stmt, some e, formats⟩ := by
        rw [hserve, handleDescribePortal, hp]
        simp only
        split
        · obtain ⟨hengine, hconn⟩ := describeRows_keeps_portal hens
          exact ⟨hengine, hconn.trans hp⟩
        · exact ⟨rfl, hp⟩
      refine ⟨⟨e, hr.2, ?_⟩, fun _ => hr.1, hruns⟩
      rw [fetchedAt_of_not_executes hexec]
      exact (Sends.refl hok).congr (not_drainedAt_of_not_executes hexec)
  · rw [Bool.not_eq_true] at hn
    have hexec := executes_of_not_named hn
    refine ⟨⟨e, (step_of_not_named hd hn).trans hp, ?_⟩, ?_, runsPortal_of_not_named hn⟩
    · rw [fetchedAt_of_not_executes hexec]
      exact (Sends.refl hok).congr (not_drainedAt_of_not_executes hexec)
    · intro hn'
      rw [hn] at hn'
      cases hn'

/-- A portal that has run, over a whole run. -/
theorem executed_run {e : Executed} (hp : c.portals[p]? = some ⟨some stmt, some e, formats⟩)
    (hcopy : ∀ copy, stmt ≠ .copyIn copy) (hok : e.WellSent)
    (hd : Runs.Along next (fun c t => c.discards p t.action = false) c turns) :
    (∃ e', (Runs.after next c turns).portals[p]? = some ⟨some stmt, some e', formats⟩ ∧
      Sends e e' (fetched p c turns) (Drained p c turns)) ∧
    Runs.Along next (fun c t => c.runsPortal p t.action = none ∧
      (c.namesPortal p t.action = true → (c.serve t).engine = t.engine)) c turns := by
  induction turns generalizing c e with
  | nil => exact ⟨⟨e, hp, Sends.refl hok⟩, trivial⟩
  | cons t turns ih =>
    obtain ⟨hd₁, hrest⟩ := hd
    obtain ⟨⟨e₁, hp₁, hsends₁⟩, hengine, hruns⟩ := executed_step hp hcopy hok hd₁
    obtain ⟨⟨e₂, hp₂, hsends₂⟩, hwhole⟩ := ih hp₁ hsends₁.wellSent hrest
    exact ⟨⟨e₂, hp₂, hsends₁.trans hsends₂⟩, ⟨hruns, hengine⟩, hwhole⟩

/-- What a step can run is the statement of a portal that has not run. -/
theorem portal_of_runsPortal {a : Action} (h : c.runsPortal p a = some stmt) :
    c.namesPortal p a = true ∧ (∀ copy, stmt ≠ .copyIn copy) ∧
      ∃ formats, c.portals[p]? = some ⟨some stmt, none, formats⟩ := by
  have hn : c.namesPortal p a = true := by
    by_contra hn
    rw [Bool.not_eq_true] at hn
    rw [runsPortal_of_not_named hn] at h
    cases h
  refine ⟨hn, ?_⟩
  cases a with
  | advance => cases h
  | receive m =>
    cases m with
    | execute name maxRows =>
      rw [runsPortal, if_pos hn] at h
      split at h
      · cases h
      · cases h
      · rename_i stmt' formats hcopy hp _
        subst h
        refine ⟨?_, formats, hp⟩
        rintro copy rfl
        exact hcopy copy rfl
      · cases h
    | describePortal name =>
      rw [runsPortal, if_pos hn] at h
      split at h
      · rename_i stmt' formats hp
        split at h
        · rename_i hrows
          cases h
          refine ⟨?_, formats, hp⟩
          rintro copy rfl
          cases hrows
        · cases h
      · cases h
    | _ => cases h

/-- A portal that has not run stays so, or gets an outcome and starts to send it. -/
theorem fresh_step (hp : c.portals[p]? = some ⟨some stmt, none, formats⟩)
    (hcopy : ∀ copy, stmt ≠ .copyIn copy) (hd : c.discards p t.action = false) :
    ((c.next t).portals[p]? = some ⟨some stmt, none, formats⟩ ∧ c.fetchedAt p t = [] ∧
      ¬ c.DrainedAt p t ∧ (c.runsPortal p t.action = none ∨
        ∃ err, (c.executeStmt t.engine stmt).2.2 = .error err)) ∨
    ∃ e e', (c.executeStmt t.engine stmt).2.2 = .ok e ∧
      (c.next t).portals[p]? = some ⟨some stmt, some e', formats⟩ ∧
      Sends e e' (c.fetchedAt p t) (c.DrainedAt p t) := by
  by_cases hn : c.namesPortal p t.action = true
  swap
  · rw [Bool.not_eq_true] at hn
    have hexec := executes_of_not_named hn
    exact .inl ⟨(step_of_not_named hd hn).trans hp, fetchedAt_of_not_executes hexec,
      not_drainedAt_of_not_executes hexec, .inl (runsPortal_of_not_named hn)⟩
  obtain ⟨txn, time, hconn⟩ := c.executeStmt_conn t.engine stmt
  -- what running the statement leaves in the portal
  have hens : (∃ s' err, (c.executeStmt t.engine stmt).2.2 = .error err ∧
        c.ensureExecuted t.engine p ⟨some stmt, none, formats⟩ stmt =
          (s', { c with txn, time }, .error err)) ∨
      ∃ s' c' e, (c.executeStmt t.engine stmt).2.2 = .ok e ∧
        c.ensureExecuted t.engine p ⟨some stmt, none, formats⟩ stmt = (s', c', .ok e) ∧
        c'.portals[p]? = some ⟨some stmt, some e, formats⟩ := by
    unfold ensureExecuted
    generalize c.executeStmt t.engine stmt = run at hconn ⊢
    obtain ⟨s', c', r⟩ := run
    obtain rfl : c' = { c with txn, time } := hconn
    cases r with
    | error err => exact .inl ⟨s', err, rfl, rfl⟩
    | ok e => exact .inr ⟨s', _, e, rfl, rfl, setExecuted_self _ _⟩
  rcases serve_of_names hn with ⟨maxRows, ha, hserve⟩ | ⟨ha, hserve⟩
  · have hexec : c.executes p t.action = true := by rw [ha] at hn ⊢; exact hn
    by_cases hfailed : ∃ txn, c.txn = .failed txn
    · obtain ⟨txn, htxn⟩ := hfailed
      have hr : c.serve t = c.failExtended t.engine .inFailedTransaction := by
        rw [hserve, handleExecute, htxn]
      refine .inl ⟨by rw [next, hr]; exact hp, ?_, ?_, .inl ?_⟩
      · rw [fetchedAt, hexec, if_pos rfl, hr]
        rfl
      · rintro ⟨-, tag, htag⟩
        rw [hr] at htag
        cases htag with
        | tail _ htag => cases htag
      · rw [ha, runsPortal, ← ha, if_pos hn, htxn]
    · have hr : c.serve t = c.runPortal t.engine p ⟨some stmt, none, formats⟩ stmt maxRows := by
        rw [hserve, handleExecute, ← executePortal_eq hp hcopy]
        cases htxn : c.txn with
        | failed txn => exact absurd ⟨txn, htxn⟩ hfailed
        | active txn => rfl
        | idle => rfl
      rcases hens with ⟨s', err, herr, hens⟩ | ⟨s', c', e, hok, hens, hp'⟩
      · have hr' : c.serve t = ({ c with txn, time } : Conn).failExtended s' (.engine err) := by
          rw [hr, runPortal, hens]
        refine .inl ⟨by rw [next, hr']; exact hp, ?_, ?_, .inr ⟨err, herr⟩⟩
        · rw [fetchedAt, hexec, if_pos rfl, hr']
          rfl
        · rintro ⟨-, tag, htag⟩
          rw [hr'] at htag
          cases htag with
          | tail _ htag => cases htag
      · obtain ⟨-, e', hp'', hsends⟩ :=
          runPortal_sends maxRows hens hp' (executeStmt_wellSent hok)
        refine .inr ⟨e, e', hok, by rw [next, hr]; exact hp'', ?_⟩
        rw [fetchedAt, hexec, if_pos rfl, hr]
        refine hsends.congr ?_
        rintro ⟨-, htag⟩
        rwa [hr] at htag
  · have hexec : c.executes p t.action = false := by rw [ha]; rfl
    have hr : c.serve t = if stmt.returnsRows then
        c.describeRows t.engine p ⟨some stmt, none, formats⟩ stmt
        else ⟨t.engine, c, [.noData]⟩ := by
      rw [hserve, handleDescribePortal, hp]
    by_cases hrows : stmt.returnsRows = true
    · rw [if_pos hrows] at hr
      rcases hens with ⟨s', err, herr, hens⟩ | ⟨s', c', e, hok, hens, hp'⟩
      · refine .inl ⟨?_, fetchedAt_of_not_executes hexec, not_drainedAt_of_not_executes hexec,
          .inr ⟨err, herr⟩⟩
        rw [next, hr, describeRows, hens]
        exact hp
      · refine .inr ⟨e, e, hok, ?_, ?_⟩
        · rw [next, hr]
          exact (describeRows_keeps_portal hens).2.trans hp'
        · rw [fetchedAt_of_not_executes hexec]
          exact (Sends.refl (executeStmt_wellSent hok)).congr (not_drainedAt_of_not_executes hexec)
    · rw [if_neg hrows] at hr
      refine .inl ⟨by rw [next, hr]; exact hp, fetchedAt_of_not_executes hexec,
        not_drainedAt_of_not_executes hexec, .inl ?_⟩
      rw [ha, runsPortal, ← ha, if_pos hn, hp]
      exact if_neg hrows

/-- A portal that has not run at the end of a run has sent nothing in it. -/
theorem fresh_run {formats' : List ℤ} {stmt' : Statement}
    (hp : c.portals[p]? = some ⟨some stmt, none, formats⟩)
    (hcopy : ∀ copy, stmt ≠ .copyIn copy)
    (hd : Runs.Along next (fun c t => c.discards p t.action = false) c turns)
    (hend : (Runs.after next c turns).portals[p]? = some ⟨some stmt', none, formats'⟩) :
    fetched p c turns = [] ∧ ¬ Drained p c turns := by
  induction turns generalizing c with
  | nil => exact ⟨rfl, id⟩
  | cons t turns ih =>
    obtain ⟨hd₁, hrest⟩ := hd
    rcases fresh_step hp hcopy hd₁ with ⟨hp₁, hnone, hdrained, -⟩ | ⟨e, e', -, hp₁, hsends⟩
    · obtain ⟨hnone', hdrained'⟩ := ih hp₁ hrest hend
      refine ⟨?_, ?_⟩
      · rw [fetched, hnone, hnone']
        rfl
      · rintro (h | h)
        · exact hdrained h
        · exact hdrained' h
    · -- an outcome would still be there
      obtain ⟨⟨e'', hp₂, -⟩, -⟩ := executed_run hp₁ hcopy hsends.wellSent hrest
      rw [Runs.after_cons, hp₂] at hend
      cases hend

end Portal

/-! ### `EXPLAIN ANALYZE` -/

theorem bind_of_bindDml {d : Dml} {snapshot : SystemTimeMicros} {overlay : List BoundDml}
    {stmt : SessionEngine.DmlStatement} (h : bindDml s d snapshot overlay = .ok stmt) :
    (d.bind s.catalog snapshot).isOk = true := by
  unfold bindDml at h
  cases hp : refuseIfPoisoned s with
  | error e => simp [hp, bind, Except.bind] at h
  | ok _ =>
    cases hb : d.bind s.catalog snapshot with
    | error e => simp [hp, hb, bind, Except.bind] at h
    | ok plan => rfl

/-- The plan of a write that binds. -/
theorem planFor_of_bind {d : Dml} (time : SessionTime) {snapshot : SystemTimeMicros}
    {lines : ReadView → SystemTimeMicros → List Row}
    (h : (d.bind s.catalog snapshot).isOk = true) :
    (planFor s time snapshot lines (.dml d)).isOk = true := by
  simp only [planFor]
  cases hb : d.bind s.catalog snapshot with
  | error e => simp [hb, Except.isOk, Except.toBool] at h
  | ok plan => rfl

/-- Outside a block, the plan of a write that ran can be shown: the catalog is the same. -/
theorem execute_explain_isOk {d : Dml} {time : SessionTime}
    {lines : ReadView → SystemTimeMicros → List Row}
    (h : (executeBody s time (.dml d)).2.isOk = true) :
    (execute s time (.explain true (.dml d) lines)).2.isOk = true := by
  simp only [executeBody, runDml] at h
  simp only [execute, executeBody, runDml]
  cases hb : bindDml s d s.clock.observe.2 [] with
  | error e => simp [hb, Except.isOk, Except.toBool] at h
  | ok stmt =>
    have hbind := bind_of_bindDml hb
    have hcat := SessionEngine.catalog_of_rules (SessionEngine.rules_executeDml s stmt)
    simp only [hb] at h
    simp only
    generalize s.executeDml stmt = run at h hcat ⊢
    obtain ⟨s', r⟩ := run
    cases r with
    | error e => simp [liftResult, Except.isOk, Except.toBool] at h
    | ok _ =>
      refine planFor_of_bind time ?_
      rw [show s'.catalog = s.catalog from hcat]
      exact hbind

/-- In a block, the plan of a write that was buffered can be shown if it binds at the snapshot from
before the statement. -/
theorem executeInTxn_explain_isOk {d : Dml} {txn : SessionTransaction} {time : SessionTime}
    {lines : ReadView → SystemTimeMicros → List Row}
    (hplan : txn.isolation = .repeatableRead ∨ (d.bind s.catalog txn.snapshot).isOk = true)
    (h : (executeBodyInTxn s txn time (.dml d)).2.2.isOk = true) :
    (executeInTxn s txn time (.explain true (.dml d) lines)).2.2.isOk = true := by
  have hcat := SessionEngine.catalog_of_rules (SessionEngine.rules_startStatement s txn)
  have hstart : txn.isolation = .repeatableRead → s.startStatement txn = (s, txn) := by
    intro hrr
    simp only [SessionEngine.startStatement, hrr]
  simp only [executeBodyInTxn, stageDml] at h
  simp only [executeInTxn, executeBodyInTxn, stageDml]
  generalize s.startStatement txn = started at h hcat hstart ⊢
  obtain ⟨s₁, txn₁⟩ := started
  simp only at h hcat ⊢
  cases hb : bindDml s₁ d txn₁.snapshot (txn₁.staged.map Prod.fst) with
  | error e => simp [hb, Except.isOk, Except.toBool] at h
  | ok stmt =>
    have hbind := bind_of_bindDml hb
    simp only [hb] at h
    simp only
    generalize s₁.stageDml txn₁ stmt.writes = staged at h ⊢
    obtain ⟨txn₂, r⟩ := staged
    cases r with
    | error e => simp [liftResult, Except.isOk, Except.toBool] at h
    | ok _ =>
      refine planFor_of_bind time ?_
      rcases hplan with hrr | hold
      · obtain ⟨rfl, rfl⟩ := Prod.mk.inj (hstart hrr)
        exact hbind
      · rwa [hcat]

theorem isOk_keep (r : SessionEngine × ConnTxn × Except StatementError Outcome) :
    (c.keep r).2.2.isOk = r.2.2.isOk := by
  obtain ⟨s', txn', r⟩ := r
  cases r <;> rfl

theorem runQuery_explain_isOk {d : Dml} {lines : ReadView → SystemTimeMicros → List Row}
    (hplan : c.plans s (.dml d) = true)
    (h : (c.runQuery s (.body (.dml d))).2.2.isOk = true) :
    (c.runQuery s (.explain true (.dml d) lines)).2.2.isOk = true := by
  unfold plans at hplan
  unfold runQuery at h ⊢
  cases htxn : c.txn with
  | active txn =>
    simp only [htxn] at hplan h ⊢
    have hplan' : txn.isolation = .repeatableRead ∨
        (d.bind s.catalog txn.snapshot).isOk = true := by simpa using hplan
    exact executeInTxn_explain_isOk (s := s.setPrincipal c.principal) hplan' h
  | idle =>
    simp only [htxn] at h ⊢
    exact execute_explain_isOk h
  | failed txn =>
    simp only [htxn] at h ⊢
    exact execute_explain_isOk h

/-- In a tame step, a statement that the engine accepts leaves an outcome. -/
theorem executeStmt_of_accepted {a : Action} {stmt : Statement} (htame : c.tame s a = true)
    (hruns : c.runsPortal p a = some stmt) (hacc : c.accepted s stmt = true) :
    ∃ e, (c.executeStmt s stmt).2.2 = .ok e := by
  have hexplain (inner : Body) (lines : ReadView → SystemTimeMicros → List Row)
      (hstmt : stmt = .engine (.explain true inner lines)) :
      c.plans s inner = true := by
    obtain ⟨hn, -, -⟩ := portal_of_runsPortal hruns
    cases a with
    | advance => cases hn
    | receive m =>
      cases m with
      | execute name maxRows =>
        obtain rfl : name = p := by simpa using (Bool.and_eq_true_iff.1 hn).2
        simpa [tame, hruns, hstmt] using htame
      | describePortal name =>
        obtain rfl : name = p := by simpa using (Bool.and_eq_true_iff.1 hn).2
        have hw : inner.writes = false := by simpa [tame, hruns, hstmt] using htame
        cases inner <;> first | rfl | cases hw
      | _ => cases hn
  have hok : (c.executeStmt s stmt).2.2.isOk = true := by
    unfold accepted at hacc
    split at hacc
    · rename_i d lines
      exact (isOk_keep _).trans (runQuery_explain_isOk (hexplain _ _ rfl) hacc)
    · rename_i ddl lines
      cases hexplain _ _ rfl
    · exact hacc
  cases he : (c.executeStmt s stmt).2.2 with
  | ok e => exact ⟨e, rfl⟩
  | error err => simp [he, Except.isOk, Except.toBool] at hok

/-! ### Tame runs -/

/-- A run whose steps are all tame. -/
def TameRun (c : Conn) (turns : List Turn) : Prop :=
  Runs.Along next (fun c t => c.tame t.engine t.action = true) c turns

instance (c : Conn) (turns : List Turn) : Decidable (c.TameRun turns) :=
  inferInstanceAs (Decidable (Runs.Along ..))

theorem fetched_append (c : Conn) (l l' : List Turn) :
    fetched p c (l ++ l') = fetched p c l ++ fetched p (Runs.after next c l) l' := by
  induction l generalizing c with
  | nil => rfl
  | cons t l ih =>
    rw [List.cons_append, fetched, fetched, ih, Runs.after_cons, List.append_assoc]

theorem drained_append (c : Conn) (l l' : List Turn) :
    Drained p c (l ++ l') ↔ Drained p c l ∨ Drained p (Runs.after next c l) l' := by
  induction l generalizing c with
  | nil => simp [Drained, Runs.after]
  | cons t l ih =>
    rw [List.cons_append, Drained, Drained, ih, Runs.after_cons, or_assoc]

/-- From the step that gives a portal its outcome on, over a run. -/
theorem outcome_run {t : Turn} {turns : List Turn} {stmt : Statement} {e : Executed}
    (hruns : c.runsPortal p t.action = some stmt)
    (hok : (c.executeStmt t.engine stmt).2.2 = .ok e)
    (hd : Runs.Along next (fun c t => c.discards p t.action = false) c (t :: turns)) :
    (∃ e', Sends e e' (fetched p c (t :: turns)) (Drained p c (t :: turns))) ∧
    Runs.Along next (fun c t => c.runsPortal p t.action = none ∧
      (c.namesPortal p t.action = true → (c.serve t).engine = t.engine)) (c.next t) turns := by
  obtain ⟨-, hcopy, formats, hp⟩ := portal_of_runsPortal hruns
  obtain ⟨hd₁, hrest⟩ := hd
  rcases fresh_step hp hcopy hd₁ with ⟨-, -, -, hnone | ⟨err, herr⟩⟩ | ⟨e₀, e₁, hok', hp₁, hsends⟩
  · rw [hruns] at hnone
    cases hnone
  · rw [hok] at herr
    cases herr
  · obtain rfl : e = e₀ := by
      rw [hok] at hok'
      exact Except.ok.inj hok'
    obtain ⟨⟨e₂, -, hsends₂⟩, hwhole⟩ := executed_run hp₁ hcopy hsends.wellSent hrest
    exact ⟨⟨e₂, hsends.trans hsends₂⟩, hwhole⟩

/-- A portal in a tame run takes effect once at most. -/
theorem portalOnce_of_tame {turns : List Turn} (htame : c.TameRun turns) (hfresh : c.FreshPortal p)
    (hd : Runs.Along next (fun c t => c.discards p t.action = false) c turns) :
    PortalOnce c p turns where
  once := by
    rintro pre t mid u post rfl ⟨stmt, hruns, hacc⟩
    rw [List.append_assoc, List.cons_append] at htame hd
    obtain ⟨hord, -⟩ := Runs.Along.at_split htame
    obtain ⟨e, hok⟩ := executeStmt_of_accepted hord hruns hacc
    obtain ⟨-, hafter⟩ := outcome_run hruns hok (Runs.along_append.1 hd).2
    obtain ⟨⟨hnone, hengine⟩, -⟩ := Runs.Along.at_split hafter
    have hstate : Runs.after next c (pre ++ t :: mid) =
        Runs.after next ((Runs.after next c pre).next t) mid := by
      rw [Runs.after_append, Runs.after_cons]
    rw [hstate]
    refine ⟨?_, hengine⟩
    rintro ⟨stmt', hruns', -⟩
    rw [hnone] at hruns'
    cases hruns'
  rows := by
    rintro pre t post rfl columns rows ⟨stmt, hruns, hok⟩
    obtain ⟨stmt₀, formats₀, hp₀, hcopy₀⟩ := hfresh
    obtain ⟨-, -, formats, hp⟩ := portal_of_runsPortal hruns
    obtain ⟨hdpre, hdrest⟩ := Runs.along_append.1 hd
    -- nothing is sent before the outcome is there
    obtain ⟨hnone, hundrained⟩ := fresh_run hp₀ hcopy₀ hdpre hp
    obtain ⟨⟨e', n, -, -, hrows, hall⟩, -⟩ := outcome_run hruns hok hdrest
    refine ⟨n, ?_, fun hdrained => ?_⟩
    · rw [fetched_append, hnone, List.nil_append, hrows, List.drop_zero]
    · rcases (drained_append c pre (t :: post)).1 hdrained with h | h
      · exact absurd h hundrained
      · simpa using hall h

/-- In a run without `Describe` of a portal that explains a write by running it, and without
`Execute` of one whose plan cannot be shown, only `Execute` and `Query` have effects, and each
portal one at most. -/
theorem tame_run (c : Conn) (turns : List Turn) (h : c.TameRun turns) :
    c.EffectsByExecute turns where
  passive := by
    rintro pre ⟨s, a⟩ post rfl m rfl hm
    obtain ⟨htame, -⟩ := Runs.Along.at_split h
    exact keepsData_of_passive hm htame
  portals := by
    rintro pre mid post rfl p hfresh hd
    have hmid := (Runs.along_append.1 (Runs.along_append.1 h).1).2
    exact portalOnce_of_tame hmid hfresh hd

/-! ### A write that is described -/

theorem columnName_ne_nil : ([107] : Bytes) ≠ [] := by decide

/-- A session with the table `t (k INT PRIMARY KEY)`. -/
def tableT : SessionEngine :=
  ((SessionEngine.opened fun _ => 0).executeCommand
    (.ddl (.createTable [116] [⟨[107], .int4, columnName_ne_nil⟩] none))).1

/-- `INSERT INTO t VALUES (1)`, bound. -/
def insertPlan : DmlPlan where
  table := [116]
  privileges := [.insert]
  source := none
  writes _ _ _ := .ok (.point ⟨[116], [1], .insert [] none⟩)
  writes_table := by
    rintro view snapshot overlay stmt ⟨⟩ w hw
    obtain rfl := List.mem_singleton.1 hw
    exact ⟨rfl, List.mem_singleton_self _⟩

/-- `INSERT INTO t VALUES (1)`. -/
def insertT : Dml where
  bind catalog snapshot :=
    if (catalog.resolve [116] snapshot).isSome then .ok insertPlan else .error .bind
  bind_resolves := by
    intro catalog snapshot plan h
    split at h
    · cases h
      assumption
    · cases h

/-- Prepare a statement and bind it, both without a name. -/
def bindUnnamed (stmt : Statement) : List Action :=
  [.receive (.parse [] (.ok (some ⟨0, stmt, fun _ => some stmt⟩)) []),
    .receive (.bind [] [] [] [] [])]

/-- Steps on the session with the table. -/
def turnsOnT (actions : List Action) : List Turn := actions.map fun action => ⟨tableT, action⟩

/-- Two `Execute`s of an `INSERT` insert once. -/
theorem tame_run_insert :
    ({ principal := wirePrincipal } : Conn).EffectsByExecute
      (turnsOnT (bindUnnamed (.engine (.body (.dml insertT))) ++
        [.receive (.describePortal []), .receive (.execute [] 0), .receive (.execute [] 0)])) :=
  tame_run _ _ (by decide +kernel)

/-- `Describe` of `EXPLAIN ANALYZE INSERT` inserts. -/
theorem describe_not_effectsByExecute :
    ¬ ({ principal := wirePrincipal } : Conn).EffectsByExecute
      (turnsOnT (bindUnnamed (.engine (.explain true (.dml insertT) fun _ _ => [])) ++
        [.receive (.describePortal [])])) := by
  intro h
  obtain ⟨hdata, -⟩ := h.passive
    (turnsOnT (bindUnnamed (.engine (.explain true (.dml insertT) fun _ _ => []))))
    ⟨tableT, .receive (.describePortal [])⟩ [] rfl _ rfl rfl
  have hlog := congrArg (fun s : SessionEngine => s.commitLog.frames.length) hdata
  exact absurd hlog (by decide +kernel)

end Conn

end Wire

end SteleDb
