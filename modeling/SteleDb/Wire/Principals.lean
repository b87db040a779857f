import SteleDb.Wire.Connection

/-!
# Who a message is judged as

The engine has one principal, and each connection sets it to its own before it runs a statement.
Two requests are served without: `Describe` of a prepared statement, and the start of a `COPY`,
both of which look at the engine under whatever principal the last statement left behind.

`World.run_judgedBySelf` says that these are the only ones: in a run where each such request either
finds its own principal in the engine or asks about tables that both principals may use, every
reply, every connection and all of the engine but the principal are what they are when each
connection sets the principal before every step.
-/

namespace SteleDb

namespace Wire

/-! ### The world -/

/-- The engine with the connections it serves. -/
structure World where
  /-- The engine. -/
  engine : SessionEngine
  /-- The connections. -/
  conns : ℕ → Conn

namespace World

/-- A step of connection `i`. -/
def step (w : World) (i : ℕ) (a : Conn.Action) : World × List Reply :=
  let r := (w.conns i).step w.engine a
  (⟨r.engine, Function.update w.conns i r.conn⟩, r.replies)

/-- A run: each step is of one connection. -/
def run (w : World) : List (ℕ × Conn.Action) → World × List (List Reply)
  | [] => (w, [])
  | (i, a) :: steps =>
    let (w, replies) := w.step i a
    let (w, rest) := w.run steps
    (w, replies :: rest)

/-- The world where connection `i` has the engine to itself. -/
def stamp (w : World) (i : ℕ) : World :=
  { w with engine := w.engine.setPrincipal (w.conns i).principal }

/-- A run in which the engine is told who asks before every step. -/
def runStamped (w : World) : List (ℕ × Conn.Action) → World × List (List Reply)
  | [] => (w, [])
  | (i, a) :: steps =>
    let (w, replies) := (w.stamp i).step i a
    let (w, rest) := w.runStamped steps
    (w, replies :: rest)

/-- The world without the principal of the engine. -/
def anonymous (w : World) : World := { w with engine := w.engine.setPrincipal [] }

end World

/-! ### Requests served under another principal -/

namespace Conn

variable (c : Conn) (s : SessionEngine)

/-- Where `Describe` binds a statement. -/
def describeSnapshot : SystemTimeMicros :=
  match c.txn with
  | .active txn => txn.snapshot
  | .failed txn => txn.snapshot
  | .idle => s.clock.observe.2

/-- Where `COPY` binds its statement. -/
def copySnapshot : SystemTimeMicros :=
  match c.txn with
  | .active txn => txn.snapshot
  | _ => s.clock.observe.2

/-- What the description of a statement asks of the role. -/
def describeChecks (stmt : Statement) : List (Name × Privilege) :=
  match stmt.toEngine with
  | .body (.query q) =>
    match q.describedTables c.time s.catalog (c.describeSnapshot s) with
    | .ok tables => tables.map fun table => (table, .select)
    | .error _ => []
  | _ => []

/-- What the start of a `COPY` asks of the role. -/
def copyChecks (stmt : CopyStatement) : List (Name × Privilege) :=
  match stmt.bind s.catalog (c.copySnapshot s) with
  | .ok () => [(stmt.table, .insert)]
  | .error _ => []

/-- The privileges a step asks about without saying who asks. -/
def unstampedChecks : Action → List (Name × Privilege)
  | .advance =>
    match c.advances, c.txn, c.batch with
    | true, .failed _, _ => []
    | true, _, some (.copyIn stmt :: _) => c.copyChecks s stmt
    | _, _, _ => []
  | .receive (.describeStatement name) =>
    match c.serves (.describeStatement name), c.prepared[name]? with
    | true, some ⟨some template, _⟩ => c.describeChecks s template.unbound
    | _, _ => []
  | .receive (.execute name maxRows) =>
    match c.serves (.execute name maxRows), c.txn, c.portals[name]? with
    | true, .failed _, _ => []
    | true, _, some ⟨some (.copyIn stmt), _, _⟩ => c.copyChecks s stmt
    | _, _, _ => []
  | _ => []

/-- A step that asks about privileges without saying who asks finds its own principal in the
engine, or asks for privileges that both principals have. -/
def JudgedAsSelf (a : Action) : Prop :=
  s.writePrincipal = c.principal ∨
    ∀ check ∈ c.unstampedChecks s a,
      s.authorizeTable check.1 check.2 = .ok () ∧
        (s.setPrincipal c.principal).authorizeTable check.1 check.2 = .ok ()

end Conn

/-! ### The principal only matters to checks -/

/-- What a step leaves behind, without the principal of the engine. -/
def Served.anonymous (r : Served) : Served := { r with engine := r.engine.setPrincipal [] }

@[simp] theorem setPrincipal_setPrincipal (s : SessionEngine) (p q : Name) :
    (s.setPrincipal p).setPrincipal q = s.setPrincipal q := rfl

@[simp] theorem setPrincipal_clock (s : SessionEngine) (p : Name) :
    (s.setPrincipal p).clock = s.clock := rfl

@[simp] theorem setPrincipal_catalog (s : SessionEngine) (p : Name) :
    (s.setPrincipal p).catalog = s.catalog := rfl

@[simp] theorem observe_setPrincipal (s : SessionEngine) (p : Name) :
    (s.setPrincipal p).observe = s.observe.setPrincipal p := rfl

@[simp] theorem dropLease_setPrincipal (s : SessionEngine) (p : Name) (txn : SessionTransaction) :
    (s.setPrincipal p).dropLease txn = (s.dropLease txn).setPrincipal p := rfl

/-- The engine as its own principal left it. -/
theorem setPrincipal_self {s : SessionEngine} {p : Name} (h : s.writePrincipal = p) :
    s.setPrincipal p = s := by
  subst h
  rfl

/-- Whether the tables may be used is the same for two principals that may use them. -/
theorem authorizeTables_eq_ok {s : SessionEngine} {privilege : Privilege} {tables : List Name}
    (h : ∀ table ∈ tables, s.authorizeTable table privilege = .ok ()) :
    authorizeTables s privilege tables = .ok () := by
  induction tables with
  | nil => rfl
  | cons table tables ih =>
    rw [authorizeTables, h table List.mem_cons_self]
    exact ih fun t ht => h t (List.mem_cons_of_mem _ ht)

namespace Conn

variable {c : Conn} {s : SessionEngine} {p : Name}

theorem runBegin_setPrincipal (isolation : Except Unit (Option IsolationLevel)) :
    (c.runBegin (s.setPrincipal p) isolation).anonymous = (c.runBegin s isolation).anonymous := by
  unfold runBegin
  cases c.txn with
  | idle => cases isolation <;> rfl
  | active txn => rfl
  | failed txn => rfl

theorem runSetTransaction_setPrincipal (isolation : Except Unit (Option IsolationLevel)) :
    (c.runSetTransaction (s.setPrincipal p) isolation).anonymous =
      (c.runSetTransaction s isolation).anonymous := by
  unfold runSetTransaction
  cases c.txn with
  | idle => rfl
  | active txn => cases isolation <;> rfl
  | failed txn => rfl

/-- `COMMIT` stamps the engine first. -/
theorem runCommit_setPrincipal :
    (c.runCommit (s.setPrincipal p)).anonymous = (c.runCommit s).anonymous := by
  unfold runCommit
  cases c.txn <;> rfl

theorem dropBlock_setPrincipal :
    c.dropBlock (s.setPrincipal p) = (c.dropBlock s).setPrincipal p := by
  unfold dropBlock
  cases c.txn <;> rfl

theorem runSavepoint_setPrincipal (name : Name) :
    (c.runSavepoint (s.setPrincipal p) name).anonymous = (c.runSavepoint s name).anonymous := by
  unfold runSavepoint
  cases c.txn <;> rfl

theorem runRelease_setPrincipal (name : Name) :
    (c.runRelease (s.setPrincipal p) name).anonymous = (c.runRelease s name).anonymous := by
  unfold runRelease
  cases c.txn with
  | idle => rfl
  | active txn =>
    simp only
    split <;> rfl
  | failed txn => rfl

theorem rollbackBlockTo_setPrincipal (txn : SessionTransaction) (name : Name) :
    (c.rollbackBlockTo (s.setPrincipal p) txn name).anonymous =
      (c.rollbackBlockTo s txn name).anonymous := by
  unfold rollbackBlockTo
  split <;> rfl

theorem runRollbackTo_setPrincipal (name : Name) :
    (c.runRollbackTo (s.setPrincipal p) name).anonymous = (c.runRollbackTo s name).anonymous := by
  unfold runRollbackTo
  cases c.txn with
  | idle => rfl
  | active txn => exact rollbackBlockTo_setPrincipal txn name
  | failed txn => exact rollbackBlockTo_setPrincipal txn name

theorem runControl_setPrincipal (ctl : TxnControl) :
    (c.runControl (s.setPrincipal p) ctl).anonymous = (c.runControl s ctl).anonymous := by
  cases ctl with
  | begin_ isolation => exact runBegin_setPrincipal isolation
  | setTransaction isolation => exact runSetTransaction_setPrincipal isolation
  | commit => exact runCommit_setPrincipal
  | rollback =>
    show (Served.mk (c.dropBlock (s.setPrincipal p)) _ _).anonymous = _
    rw [dropBlock_setPrincipal]
    rfl
  | savepoint name => exact runSavepoint_setPrincipal name
  | release name => exact runRelease_setPrincipal name
  | rollbackTo name => exact runRollbackTo_setPrincipal name

theorem applySessionCommand_setPrincipal (cmd : SessionCommand) :
    c.applySessionCommand (s.setPrincipal p) cmd =
      ((c.applySessionCommand s cmd).1.setPrincipal p, (c.applySessionCommand s cmd).2) := by
  cases cmd with
  | setTime dimension resolve =>
    simp only [applySessionCommand, setPrincipal_clock]
    cases resolve s.clock.observe.2 <;> rfl
  | resetTime dimension => rfl
  | resetAll => rfl
  | tolerated isReset => rfl

/-- What a `COPY` loads into depends on the principal only through the check it makes. -/
theorem copyShape_setPrincipal {stmt : CopyStatement} {snapshot : SystemTimeMicros}
    (h : stmt.bind s.catalog snapshot = .ok () → s.authorizeTable stmt.table .insert = .ok () ∧
      (s.setPrincipal p).authorizeTable stmt.table .insert = .ok ()) :
    copyShape (s.setPrincipal p) stmt snapshot = copyShape s stmt snapshot := by
  unfold copyShape
  rw [setPrincipal_catalog]
  cases hb : stmt.bind s.catalog snapshot with
  | error e => rfl
  | ok _ =>
    obtain ⟨hs, hp⟩ := h hb
    rw [hs, hp]

theorem copyChecks_of_bind {stmt : CopyStatement}
    (hb : stmt.bind s.catalog (c.copySnapshot s) = .ok ()) :
    c.copyChecks s stmt = [(stmt.table, .insert)] := by
  rw [copyChecks, hb]

/-- The start of a `COPY` depends on the principal only through what it asks about. -/
theorem startCopy_setPrincipal {stmt : CopyStatement}
    (h : ∀ check ∈ c.copyChecks s stmt, s.authorizeTable check.1 check.2 = .ok () ∧
      (s.setPrincipal p).authorizeTable check.1 check.2 = .ok ()) :
    (c.startCopy (s.setPrincipal p) stmt).anonymous = (c.startCopy s stmt).anonymous := by
  have hbind : stmt.bind s.catalog (c.copySnapshot s) = .ok () →
      s.authorizeTable stmt.table .insert = .ok () ∧
        (s.setPrincipal p).authorizeTable stmt.table .insert = .ok () := by
    intro hb
    exact h (stmt.table, .insert) (by rw [copyChecks_of_bind hb]; exact List.mem_singleton_self _)
  unfold startCopy
  unfold copySnapshot at hbind
  cases ht : c.txn with
  | active txn =>
    rw [ht] at hbind
    simp only
    rw [copyShape_setPrincipal hbind]
    cases copyShape s stmt txn.snapshot <;> rfl
  | idle =>
    rw [ht] at hbind
    simp only [observe_setPrincipal, setPrincipal_clock]
    -- a fresh snapshot is taken, which changes nothing that the check looks at
    rw [copyShape_setPrincipal (s := s.observe) hbind]
    cases copyShape s.observe stmt s.clock.observe.2 <;> rfl
  | failed txn =>
    rw [ht] at hbind
    simp only [observe_setPrincipal, setPrincipal_clock]
    rw [copyShape_setPrincipal (s := s.observe) hbind]
    cases copyShape s.observe stmt s.clock.observe.2 <;> rfl

/-- The columns of a statement depend on the principal only through the checks made for them. -/
theorem describeAt_setPrincipal {stmt : EngineStatement} {time : SessionTime}
    {snapshot : SystemTimeMicros}
    (h : ∀ q tables, stmt = .body (.query q) →
      q.describedTables time s.catalog snapshot = .ok tables →
      ∀ table ∈ tables, s.authorizeTable table .select = .ok () ∧
        (s.setPrincipal p).authorizeTable table .select = .ok ()) :
    describeAt (s.setPrincipal p) time snapshot stmt = describeAt s time snapshot stmt := by
  cases stmt with
  | explain analyze inner lines => rfl
  | admin cmd => rfl
  | body b =>
    cases b with
    | query q =>
      simp only [describeAt, setPrincipal_catalog]
      cases hq : q.describedTables time s.catalog snapshot with
      | error e => rfl
      | ok tables =>
        have ht := h q tables rfl hq
        have hs : authorizeTables s .select tables = .ok () :=
          authorizeTables_eq_ok fun table htable => (ht table htable).1
        have hp : authorizeTables (s.setPrincipal p) .select tables = .ok () :=
          authorizeTables_eq_ok fun table htable => (ht table htable).2
        simp only [bind, Except.bind, hs, hp]
    | dml d => rfl
    | ddl stmt => rfl
    | badDdl => rfl
    | other => rfl

/-- A description depends on the principal only through what it asks about. -/
theorem describeStatementColumns_setPrincipal {stmt : Statement}
    (h : ∀ check ∈ c.describeChecks s stmt, s.authorizeTable check.1 check.2 = .ok () ∧
      (s.setPrincipal p).authorizeTable check.1 check.2 = .ok ()) :
    c.describeStatementColumns (s.setPrincipal p) stmt =
      ((c.describeStatementColumns s stmt).1.setPrincipal p,
        (c.describeStatementColumns s stmt).2) := by
  have hchecks (q : Query) (tables : List Name) (hq : stmt.toEngine = .body (.query q))
      (htables : q.describedTables c.time s.catalog (c.describeSnapshot s) = .ok tables) :
      ∀ table ∈ tables, s.authorizeTable table .select = .ok () ∧
        (s.setPrincipal p).authorizeTable table .select = .ok () := by
    intro table htable
    refine h (table, .select) ?_
    rw [describeChecks, hq]
    simp only [htables]
    exact List.mem_map_of_mem htable
  have hdescribe : c.describe (s.setPrincipal p) stmt.toEngine =
      ((c.describe s stmt.toEngine).1.setPrincipal p, (c.describe s stmt.toEngine).2) := by
    unfold describeSnapshot at hchecks
    unfold describe
    cases ht : c.txn with
    | active txn =>
      simp only [ht] at hchecks
      simp only [describeAt_setPrincipal hchecks]
    | failed txn =>
      simp only [ht] at hchecks
      simp only [describeAt_setPrincipal hchecks]
    | idle =>
      simp only [ht] at hchecks
      simp only [observe_setPrincipal, setPrincipal_clock]
      rw [describeAt_setPrincipal (s := s.observe) hchecks]
  cases stmt with
  | introspection columns rows => rfl
  | constant row => rfl
  | control ctl => exact hdescribe
  | session cmd => exact hdescribe
  | copyIn stmt => exact hdescribe
  | engine stmt => exact hdescribe

/-! ### Steps -/

/-- A statement of a simple query: only the start of a `COPY` can tell who asked last. -/
theorem runLive_setPrincipal {stmt : Statement}
    (h : ∀ copy, stmt = .copyIn copy → ∀ check ∈ c.copyChecks s copy,
      s.authorizeTable check.1 check.2 = .ok () ∧
        (s.setPrincipal p).authorizeTable check.1 check.2 = .ok ()) :
    (c.runLive (s.setPrincipal p) stmt).anonymous = (c.runLive s stmt).anonymous := by
  cases stmt with
  | control ctl => exact runControl_setPrincipal ctl
  | session cmd =>
    simp only [runLive, applySessionCommand_setPrincipal]
    cases hr : c.applySessionCommand s cmd with
    | mk s' r => cases r <;> rfl
  | copyIn copy => exact startCopy_setPrincipal (h copy rfl)
  | introspection columns rows => rfl
  | constant row => rfl
  | engine stmt =>
    cases stmt with
    | admin cmd => rfl
    | explain analyze inner lines => rfl
    | body b => cases b <;> rfl

theorem runStatement_setPrincipal {stmt : Statement}
    (h : (∀ txn, c.txn ≠ .failed txn) → ∀ copy, stmt = .copyIn copy →
      ∀ check ∈ c.copyChecks s copy, s.authorizeTable check.1 check.2 = .ok () ∧
        (s.setPrincipal p).authorizeTable check.1 check.2 = .ok ()) :
    (c.runStatement (s.setPrincipal p) stmt).anonymous = (c.runStatement s stmt).anonymous := by
  have hlive : (c.runUnlessFailed (s.setPrincipal p) stmt).anonymous =
      (c.runUnlessFailed s stmt).anonymous := by
    unfold runUnlessFailed
    cases ht : c.txn with
    | failed txn => rfl
    | active txn => exact runLive_setPrincipal (h (by simp [ht]))
    | idle => exact runLive_setPrincipal (h (by simp [ht]))
  cases stmt with
  | control ctl => exact runControl_setPrincipal ctl
  | session cmd => exact hlive
  | copyIn copy => exact hlive
  | introspection columns rows => exact hlive
  | constant row => exact hlive
  | engine stmt => exact hlive

/-- The statements of a simple query. -/
theorem advance_setPrincipal
    (h : ∀ check ∈ c.unstampedChecks s .advance, s.authorizeTable check.1 check.2 = .ok () ∧
      (s.setPrincipal p).authorizeTable check.1 check.2 = .ok ()) :
    (c.advance (s.setPrincipal p)).anonymous = (c.advance s).anonymous := by
  unfold advance
  by_cases hrun : c.closed = true ∨ c.copy.isSome = true
  · rw [if_pos hrun, if_pos hrun]
    rfl
  rw [if_neg hrun, if_neg hrun]
  have hadv : c.advances = true := by
    simp only [not_or, Bool.not_eq_true, Option.isSome_eq_false_iff] at hrun
    simp [advances, hrun]
  cases hb : c.batch with
  | none => rfl
  | some stmts =>
    cases stmts with
    | nil => rfl
    | cons stmt rest =>
      have hlive (hf : ∀ txn, c.txn ≠ .failed txn) (copy : CopyStatement)
          (hcopy : stmt = .copyIn copy) :
          ∀ check ∈ ({ c with batch := some rest } : Conn).copyChecks s copy,
            s.authorizeTable check.1 check.2 = .ok () ∧
              (s.setPrincipal p).authorizeTable check.1 check.2 = .ok () := by
        subst hcopy
        intro check hcheck
        refine h check ?_
        rw [unstampedChecks, hadv, hb]
        cases ht : c.txn with
        | failed txn => exact absurd ht (hf txn)
        | active txn => simpa [copyChecks, copySnapshot, ht] using hcheck
        | idle => simpa [copyChecks, copySnapshot, ht] using hcheck
      exact runStatement_setPrincipal hlive

/-- `Describe` of a prepared statement. -/
theorem handleDescribe_setPrincipal {name : Name}
    (h : ∀ template paramOids, c.prepared[name]? = some ⟨some template, paramOids⟩ →
      ∀ check ∈ c.describeChecks s template.unbound, s.authorizeTable check.1 check.2 = .ok () ∧
        (s.setPrincipal p).authorizeTable check.1 check.2 = .ok ()) :
    (c.handleDescribe (s.setPrincipal p) name).anonymous =
      (c.handleDescribe s name).anonymous := by
  unfold handleDescribe
  cases hprep : c.prepared[name]? with
  | none => rfl
  | some prepared =>
    obtain ⟨stmt, paramOids⟩ := prepared
    cases stmt with
    | none => rfl
    | some template =>
      simp only [describeStatementColumns_setPrincipal (h template paramOids hprep)]
      cases hr : c.describeStatementColumns s template.unbound with
      | mk s' r => cases r <;> rfl

theorem executeStmt_setPrincipal (stmt : Statement) :
    ((c.executeStmt (s.setPrincipal p) stmt).1.setPrincipal [],
        (c.executeStmt (s.setPrincipal p) stmt).2) =
      ((c.executeStmt s stmt).1.setPrincipal [], (c.executeStmt s stmt).2) := by
  cases stmt with
  | session cmd =>
    simp only [executeStmt, applySessionCommand_setPrincipal]
    cases hr : c.applySessionCommand s cmd with
    | mk s' r => cases r <;> rfl
  | introspection columns rows => rfl
  | constant row => rfl
  | control ctl => rfl
  | copyIn stmt => rfl
  | engine stmt =>
    cases stmt with
    | admin cmd => rfl
    | explain analyze inner lines => rfl
    | body b => cases b <;> rfl

theorem ensureExecuted_setPrincipal (name : Name) (portal : PortalEntry) (stmt : Statement) :
    ((c.ensureExecuted (s.setPrincipal p) name portal stmt).1.setPrincipal [],
        (c.ensureExecuted (s.setPrincipal p) name portal stmt).2) =
      ((c.ensureExecuted s name portal stmt).1.setPrincipal [],
        (c.ensureExecuted s name portal stmt).2) := by
  have hrun := executeStmt_setPrincipal (c := c) (s := s) (p := p) stmt
  unfold ensureExecuted
  cases portal.executed with
  | some e => rfl
  | none =>
    simp only
    generalize c.executeStmt (s.setPrincipal p) stmt = run₁ at hrun ⊢
    generalize c.executeStmt s stmt = run₂ at hrun ⊢
    obtain ⟨s₁, c₁, r₁⟩ := run₁
    obtain ⟨s₂, c₂, r₂⟩ := run₂
    obtain ⟨hs, rfl, rfl⟩ : s₁.setPrincipal [] = s₂.setPrincipal [] ∧ c₁ = c₂ ∧ r₁ = r₂ := by
      simpa using hrun
    cases r₁ <;> simp [hs]

/-- Replies to what a portal holds do not look at the engine. -/
theorem Served.mk_anonymous {s₁ s₂ : SessionEngine} (hs : s₁.setPrincipal [] = s₂.setPrincipal [])
    (c : Conn) (replies : List Reply) :
    (Served.mk s₁ c replies).anonymous = (Served.mk s₂ c replies).anonymous := by
  simp [Served.anonymous, hs]

theorem describeRows_setPrincipal (name : Name) (portal : PortalEntry) (stmt : Statement) :
    (c.describeRows (s.setPrincipal p) name portal stmt).anonymous =
      (c.describeRows s name portal stmt).anonymous := by
  have hrun := ensureExecuted_setPrincipal (c := c) (s := s) (p := p) name portal stmt
  unfold describeRows
  generalize c.ensureExecuted (s.setPrincipal p) name portal stmt = run₁ at hrun ⊢
  generalize c.ensureExecuted s name portal stmt = run₂ at hrun ⊢
  obtain ⟨s₁, c₁, r₁⟩ := run₁
  obtain ⟨s₂, c₂, r₂⟩ := run₂
  obtain ⟨hs, rfl, rfl⟩ : s₁.setPrincipal [] = s₂.setPrincipal [] ∧ c₁ = c₂ ∧ r₁ = r₂ := by
    simpa using hrun
  cases r₁ with
  | error e => exact Served.mk_anonymous hs _ _
  | ok e =>
    simp only
    split <;> exact Served.mk_anonymous hs _ _

theorem handleDescribePortal_setPrincipal (name : Name) :
    (c.handleDescribePortal (s.setPrincipal p) name).anonymous =
      (c.handleDescribePortal s name).anonymous := by
  unfold handleDescribePortal
  cases c.portals[name]? with
  | none => rfl
  | some portal =>
    obtain ⟨stmt, executed, formats⟩ := portal
    cases stmt with
    | none => rfl
    | some stmt =>
      simp only
      split
      · exact describeRows_setPrincipal name _ stmt
      · rfl

theorem runPortal_setPrincipal (name : Name) (portal : PortalEntry) (stmt : Statement)
    (maxRows : ℤ) :
    (c.runPortal (s.setPrincipal p) name portal stmt maxRows).anonymous =
      (c.runPortal s name portal stmt maxRows).anonymous := by
  have hrun := ensureExecuted_setPrincipal (c := c) (s := s) (p := p) name portal stmt
  unfold runPortal
  generalize c.ensureExecuted (s.setPrincipal p) name portal stmt = run₁ at hrun ⊢
  generalize c.ensureExecuted s name portal stmt = run₂ at hrun ⊢
  obtain ⟨s₁, c₁, r₁⟩ := run₁
  obtain ⟨s₂, c₂, r₂⟩ := run₂
  obtain ⟨hs, rfl, rfl⟩ : s₁.setPrincipal [] = s₂.setPrincipal [] ∧ c₁ = c₂ ∧ r₁ = r₂ := by
    simpa using hrun
  cases r₁ with
  | error e => exact Served.mk_anonymous hs _ _
  | ok e =>
    simp only
    split
    · cases e <;> exact Served.mk_anonymous hs _ _
    · exact Served.mk_anonymous hs _ _

/-- `Execute`: only the start of a `COPY` can tell who asked last. -/
theorem handleExecute_setPrincipal {name : Name} {maxRows : ℤ}
    (h : (∀ txn, c.txn ≠ .failed txn) → ∀ copy executed formats,
      c.portals[name]? = some ⟨some (.copyIn copy), executed, formats⟩ →
      ∀ check ∈ c.copyChecks s copy, s.authorizeTable check.1 check.2 = .ok () ∧
        (s.setPrincipal p).authorizeTable check.1 check.2 = .ok ()) :
    (c.handleExecute (s.setPrincipal p) name maxRows).anonymous =
      (c.handleExecute s name maxRows).anonymous := by
  have hportal (hf : ∀ txn, c.txn ≠ .failed txn) :
      (c.executePortal (s.setPrincipal p) name maxRows).anonymous =
        (c.executePortal s name maxRows).anonymous := by
    unfold executePortal
    cases hp : c.portals[name]? with
    | none => rfl
    | some portal =>
      obtain ⟨stmt, executed, formats⟩ := portal
      cases stmt with
      | none => rfl
      | some stmt =>
        cases stmt with
        | copyIn copy => exact startCopy_setPrincipal (h hf copy executed formats hp)
        | control ctl => exact runPortal_setPrincipal name _ _ maxRows
        | session cmd => exact runPortal_setPrincipal name _ _ maxRows
        | introspection columns rows => exact runPortal_setPrincipal name _ _ maxRows
        | constant row => exact runPortal_setPrincipal name _ _ maxRows
        | engine stmt => exact runPortal_setPrincipal name _ _ maxRows
  unfold handleExecute
  cases ht : c.txn with
  | failed txn => rfl
  | active txn => exact hportal (by simp [ht])
  | idle => exact hportal (by simp [ht])

theorem close_setPrincipal : (c.close (s.setPrincipal p)).anonymous = (c.close s).anonymous := by
  unfold close
  rw [dropBlock_setPrincipal]
  rfl

/-- The end of a `COPY` stamps the engine before it loads anything. -/
theorem receiveCopy_setPrincipal (cp : CopyIn) (m : Message) :
    (c.receiveCopy (s.setPrincipal p) cp m).anonymous = (c.receiveCopy s cp m).anonymous := by
  cases m with
  | copyData data =>
    unfold receiveCopy
    simp only
    split <;> rfl
  | copyDone =>
    unfold receiveCopy
    simp only
    split
    · rfl
    · unfold finishCopy
      cases c.txn <;> rfl
  | copyFail => rfl
  | flush => rfl
  | sync => rfl
  | terminate => rfl
  | query q => exact close_setPrincipal
  | parse name query paramOids => exact close_setPrincipal
  | bind portal statement paramFormats params resultFormats => exact close_setPrincipal
  | describeStatement name => exact close_setPrincipal
  | describePortal name => exact close_setPrincipal
  | execute name maxRows => exact close_setPrincipal
  | closeStatement name => exact close_setPrincipal
  | closePortal name => exact close_setPrincipal
  | unsupported => exact close_setPrincipal

/-- A message. -/
theorem receive_setPrincipal {m : Message}
    (h : ∀ check ∈ c.unstampedChecks s (.receive m), s.authorizeTable check.1 check.2 = .ok () ∧
      (s.setPrincipal p).authorizeTable check.1 check.2 = .ok ()) :
    (c.receive (s.setPrincipal p) m).anonymous = (c.receive s m).anonymous := by
  unfold receive
  by_cases hclosed : c.closed = true
  · rw [if_pos hclosed, if_pos hclosed]
    rfl
  rw [if_neg hclosed, if_neg hclosed]
  cases hcopy : c.copy with
  | some cp => exact receiveCopy_setPrincipal cp m
  | none =>
    simp only
    by_cases hbatch : c.batch.isSome = true
    · rw [if_pos hbatch, if_pos hbatch]
      rfl
    rw [if_neg hbatch, if_neg hbatch]
    by_cases hskip : c.skipUntilSync = true ∧ ¬ neverSkipped m = true
    · rw [if_pos hskip, if_pos hskip]
      rfl
    rw [if_neg hskip, if_neg hskip]
    have hserves : c.serves m = true := by
      simp only [serves, hcopy]
      simp at hclosed hbatch hskip
      grind
    cases m with
    | query q =>
      unfold handle handleQuery
      cases q with
      | statements stmts => cases stmts <;> rfl
      | unterminated => rfl
      | syntaxError => rfl
    | parse name query paramOids =>
      unfold handle handleParse
      simp only
      split
      · rfl
      · cases query <;> rfl
    | bind portal statement paramFormats params resultFormats =>
      unfold handle handleBind
      simp only
      cases c.prepared[statement]? with
      | none => rfl
      | some prepared =>
        simp only
        cases bindStatement prepared paramFormats params <;> rfl
    | describeStatement name =>
      refine handleDescribe_setPrincipal fun template paramOids hprep => ?_
      simpa [unstampedChecks, hserves, hprep] using h
    | describePortal name => exact handleDescribePortal_setPrincipal name
    | execute name maxRows =>
      refine handleExecute_setPrincipal fun hf copy executed formats hp => ?_
      cases ht : c.txn with
      | failed txn => exact absurd ht (hf txn)
      | active txn => simpa [unstampedChecks, hserves, hp, ht] using h
      | idle => simpa [unstampedChecks, hserves, hp, ht] using h
    | closeStatement name => rfl
    | closePortal name => rfl
    | flush => rfl
    | sync => rfl
    | copyData data => exact close_setPrincipal
    | copyDone => exact close_setPrincipal
    | copyFail => exact close_setPrincipal
    | terminate => exact close_setPrincipal
    | unsupported => exact close_setPrincipal

/-- A step only looks at the principal of the engine for the checks it makes before stamping. -/
theorem step_setPrincipal {a : Action}
    (h : ∀ check ∈ c.unstampedChecks s a, s.authorizeTable check.1 check.2 = .ok () ∧
      (s.setPrincipal p).authorizeTable check.1 check.2 = .ok ()) :
    (c.step (s.setPrincipal p) a).anonymous = (c.step s a).anonymous := by
  cases a with
  | advance => exact advance_setPrincipal h
  | receive m => exact receive_setPrincipal h

/-- A step that is judged as its own connection does what it does when the engine is stamped. -/
theorem step_stamped {a : Action} (h : c.JudgedAsSelf s a) :
    (c.step (s.setPrincipal c.principal) a).anonymous = (c.step s a).anonymous := by
  rcases h with hself | hchecks
  · rw [setPrincipal_self hself]
  · exact step_setPrincipal hchecks

end Conn

/-! ### Runs -/

namespace World

/-- Every step of the run is judged as its own connection. -/
def Clear (w : World) : List (ℕ × Conn.Action) → Prop
  | [] => True
  | (i, a) :: steps => (w.conns i).JudgedAsSelf w.engine a ∧ (w.step i a).1.Clear steps

instance (c : Conn) (s : SessionEngine) (a : Conn.Action) : Decidable (c.JudgedAsSelf s a) :=
  inferInstanceAs (Decidable (_ ∨ _))

instance decidableClear (w : World) : (steps : List (ℕ × Conn.Action)) → Decidable (w.Clear steps)
  | [] => .isTrue trivial
  | (i, a) :: steps =>
    have := decidableClear (w.step i a).1 steps
    inferInstanceAs (Decidable (_ ∧ _))

/-- Every reply, every connection and the engine but for its principal are as if each connection
had the engine to itself. -/
def JudgedBySelf (w : World) (steps : List (ℕ × Conn.Action)) : Prop :=
  (w.run steps).2 = (w.runStamped steps).2 ∧
    (w.run steps).1.anonymous = (w.runStamped steps).1.anonymous

/-- Worlds that differ in the principal only are stamped alike. -/
theorem stamp_eq_of_anonymous_eq {w v : World} (h : w.anonymous = v.anonymous) (i : ℕ) :
    w.stamp i = v.stamp i := by
  obtain ⟨s, conns⟩ := w
  obtain ⟨t, conns'⟩ := v
  obtain ⟨hengine, rfl⟩ : s.setPrincipal [] = t.setPrincipal [] ∧ conns = conns' := by
    simpa [anonymous] using h
  have hprincipal : s.setPrincipal (conns i).principal = t.setPrincipal (conns i).principal :=
    calc
      _ = (s.setPrincipal []).setPrincipal (conns i).principal := rfl
      _ = (t.setPrincipal []).setPrincipal (conns i).principal := by rw [hengine]
      _ = _ := rfl
  simp [stamp, hprincipal]

/-- A step judged as its own connection, against the step of the stamped world. -/
theorem step_eq_stamped {w : World} {i : ℕ} {a : Conn.Action}
    (h : (w.conns i).JudgedAsSelf w.engine a) :
    ((w.stamp i).step i a).1.anonymous = (w.step i a).1.anonymous ∧
      ((w.stamp i).step i a).2 = (w.step i a).2 := by
  have hstep := Conn.step_stamped h
  simp only [Served.anonymous, Served.mk.injEq] at hstep
  obtain ⟨hengine, hconn, hreplies⟩ := hstep
  refine ⟨?_, hreplies⟩
  simp only [step, stamp, anonymous]
  rw [hengine, hconn]

/-- A run whose unstamped requests all find their own principal, or ask for privileges that both
principals have, is judged under the connections' own principals. -/
theorem run_judgedBySelf (w : World) (steps : List (ℕ × Conn.Action)) (h : w.Clear steps) :
    w.JudgedBySelf steps := by
  -- the stamped run may start from another principal: it is forgotten at its first step
  suffices hrun : ∀ (steps : List (ℕ × Conn.Action)) (w v : World), w.anonymous = v.anonymous →
      w.Clear steps → (w.run steps).2 = (v.runStamped steps).2 ∧
        (w.run steps).1.anonymous = (v.runStamped steps).1.anonymous from hrun steps w w rfl h
  intro steps
  induction steps with
  | nil => exact fun w v hwv _ => ⟨rfl, hwv⟩
  | cons e steps ih =>
    obtain ⟨i, a⟩ := e
    intro w v hwv hclear
    obtain ⟨hself, hrest⟩ := hclear
    obtain ⟨hworld, hreplies⟩ := step_eq_stamped hself
    rw [stamp_eq_of_anonymous_eq hwv i] at hworld hreplies
    obtain ⟨htail, hend⟩ := ih _ _ hworld.symm hrest
    refine ⟨?_, hend⟩
    show (w.step i a).2 :: ((w.step i a).1.run steps).2 =
      ((v.stamp i).step i a).2 :: (((v.stamp i).step i a).1.runStamped steps).2
    rw [hreplies, htail]

/-! ### A description under another principal -/

/-- `SELECT k FROM t`. -/
def selectT : Query where
  tables _ catalog snapshot :=
    if (catalog.resolve [116] snapshot).isSome then .ok [[116]] else .error .bind
  describedTables _ catalog snapshot :=
    if (catalog.resolve [116] snapshot).isSome then .ok [[116]] else .error .bind
  columns _ _ _ := 1
  rows _ _ _ _ := .ok []
  cappedRows _ _ _ _ := .ok []

theorem keyName_ne_nil : ([107] : Bytes) ≠ [] := by decide

/-- `CREATE TABLE t (k INT PRIMARY KEY)` as a simple query, with the steps that serve it. -/
def createT : List Conn.Action :=
  [.receive (.query (.statements
    [.engine (.body (.ddl (.createTable [116] [⟨[107], .int4, keyName_ne_nil⟩] none)))])),
    .advance, .advance]

/-- Prepare the statement and describe it. -/
def describeT : List Conn.Action :=
  [.receive (.parse [] (.ok (some ⟨0, .engine (.body (.query selectT)), fun _ => none⟩)) []),
    .receive (.describeStatement [])]

/-- A superuser and a role without privileges. -/
def twoRoles : World :=
  ⟨.opened fun _ => 0, fun i => { principal := if i = 0 then wirePrincipal else [97] }⟩

/-- A role that runs a statement of its own first is judged as itself, and refused. -/
theorem run_judgedBySelf_refused :
    twoRoles.JudgedBySelf (createT.map (0, ·) ++
      [(1, .receive (.query (.statements [.engine (.body (.query selectT))]))), (1, .advance),
        (1, .advance)] ++ describeT.map (1, ·)) :=
  run_judgedBySelf _ _ (by decide +kernel)

/-- A role without privileges learns the columns of a table right after a superuser's statement. -/
theorem describe_not_judgedBySelf :
    ¬ twoRoles.JudgedBySelf (createT.map (0, ·) ++ describeT.map (1, ·)) := by
  intro h
  exact absurd h.1 (by decide +kernel)

end World

end Wire

end SteleDb
