import SteleDb.Session.Txn

/-!
# What writes leave alone

Whether a statement binds is decided by the catalog, and whether a role may run it by the roles,
the access policy and the principal.  Writing rows changes none of these, whichever way the write
goes and whether or not it is refused on the way.
-/

namespace SteleDb

/-- What decides whether a statement binds and who may run it. -/
structure Rules where
  /-- The schemas. -/
  catalog : Catalog
  /-- The roles. -/
  users : OrdMap Name Role
  /-- The access policy. -/
  access : AccessControl
  /-- Who asks. -/
  principal : Name

namespace SessionEngine

variable {s s' : SessionEngine}

/-- The rules of a session. -/
def rules (s : SessionEngine) : Rules := ⟨s.catalog, s.users, s.access, s.writePrincipal⟩

theorem catalog_of_rules (h : s.rules = s'.rules) : s.catalog = s'.catalog :=
  congrArg Rules.catalog h

@[simp] theorem rules_startStatement (s : SessionEngine) (txn : SessionTransaction) :
    (s.startStatement txn).1.rules = s.rules := by
  unfold startStatement
  cases txn.isolation <;> rfl

@[simp] theorem rules_abortGroup (s : SessionEngine) (table : Name) :
    (s.abortGroup table).rules = s.rules := by
  unfold abortGroup
  split <;> rfl

@[simp] theorem rules_abortGroups (s : SessionEngine) (touched : List Name) :
    (s.abortGroups touched).rules = s.rules := by
  induction touched generalizing s with
  | nil => rfl
  | cons table touched ih => exact (ih _).trans (rules_abortGroup s table)

@[simp] theorem rules_write (s : SessionEngine) (table : Name) (key : BusinessKey) (op : DmlOp)
    (txnId : TxnId) (principal : Bytes) :
    (s.write table key op txnId principal).1.rules = s.rules := by
  unfold write
  split
  · rfl
  split
  · rfl
  split
  · rfl
  dsimp only
  split <;> split <;> rfl

@[simp] theorem rules_applyBoundDml (s : SessionEngine) (dml : BoundDml) (txnId : TxnId)
    (principal : Bytes) : (s.applyBoundDml dml txnId principal).1.rules = s.rules := by
  unfold applyBoundDml
  cases s.resolveDml dml with
  | error e => rfl
  | ok op =>
    have hw := rules_write s dml.table dml.key op txnId principal
    simp only
    generalize s.write dml.table dml.key op txnId principal = w at hw ⊢
    obtain ⟨s', r⟩ := w
    cases r <;> exact hw

theorem rules_touch {touched touched' : List Name} {table : Name}
    (h : s.touch touched table = .ok (s', touched')) : s'.rules = s.rules := by
  unfold touch at h
  split at h
  · cases h
    rfl
  · split at h
    · cases h
    · cases h
      rfl

@[simp] theorem rules_applyGroup (txnId : TxnId) (principal : Bytes) (s : SessionEngine)
    (touched : List Name) (dmls : List BoundDml) :
    (applyGroup txnId principal s touched dmls).1.rules = s.rules := by
  induction dmls generalizing s touched with
  | nil => rfl
  | cons dml dmls ih =>
    rw [applyGroup]
    cases htouch : s.touch touched dml.table with
    | error e => rfl
    | ok started =>
      obtain ⟨s₁, touched₁⟩ := started
      have hdml := rules_applyBoundDml s₁ dml txnId principal
      rw [rules_touch htouch] at hdml
      simp only
      generalize s₁.applyBoundDml dml txnId principal = w at hdml ⊢
      obtain ⟨s₂, r⟩ := w
      cases r with
      | error e => exact hdml
      | ok _ => exact (ih s₂ touched₁).trans hdml

@[simp] theorem rules_commitLeg (s : SessionEngine) (txnId : TxnId) (table : Name) :
    (s.commitLeg txnId table).1.rules = s.rules := by
  unfold commitLeg
  split
  · rfl
  split <;> rfl

@[simp] theorem rules_commitLegs (txnId : TxnId) (s : SessionEngine) (tables : List Name) :
    (commitLegs txnId s tables).1.rules = s.rules := by
  induction tables generalizing s with
  | nil => rfl
  | cons table tables ih =>
    have hleg := rules_commitLeg s txnId table
    rw [commitLegs]
    generalize s.commitLeg txnId table = leg at hleg ⊢
    obtain ⟨s₁, r⟩ := leg
    cases r with
    | error e => exact (rules_abortGroups s₁ tables).trans hleg
    | ok _ => exact (ih s₁).trans hleg

@[simp] theorem rules_recordCommit (s : SessionEngine) (txnId : TxnId) :
    (s.recordCommit txnId).1.rules = s.rules := by
  unfold recordCommit
  split <;> rfl

@[simp] theorem rules_finishGroupCommit (s : SessionEngine) (txnId : TxnId) (touched : List Name) :
    (s.finishGroupCommit txnId touched).1.rules = s.rules := by
  unfold finishGroupCommit
  split
  · rfl
  have hlegs := rules_commitLegs txnId s touched
  generalize commitLegs txnId s touched = legs at hlegs ⊢
  obtain ⟨s₁, r⟩ := legs
  cases r with
  | error e => exact hlegs
  | ok _ => exact (rules_recordCommit s₁ txnId).trans hlegs

@[simp] theorem rules_pruneWriteIndex (s : SessionEngine) : s.pruneWriteIndex.rules = s.rules := by
  unfold pruneWriteIndex
  split
  · rfl
  · split <;> rfl

/-- Group commit, whatever becomes of it. -/
@[simp] theorem rules_runGroup (s : SessionEngine) (dmls : List BoundDml) :
    (s.runGroup dmls).1.rules = s.rules := by
  have hgroup := rules_applyGroup s.nextTxn s.writePrincipal s.takeTxnId [] dmls
  unfold runGroup
  generalize applyGroup s.nextTxn s.writePrincipal s.takeTxnId [] dmls = g at hgroup ⊢
  obtain ⟨s₁, touched, r⟩ := g
  cases r with
  | error e => exact (rules_abortGroups s₁ touched).trans hgroup
  | ok _ => exact (rules_finishGroupCommit s₁ s.nextTxn touched).trans hgroup

theorem rules_applyDml (s : SessionEngine) (dml : BoundDml) :
    (s.applyDml dml).1.rules = s.rules := by
  have hrun := rules_runGroup s [dml]
  unfold applyDml
  generalize s.runGroup [dml] = run at hrun ⊢
  obtain ⟨s₁, r⟩ := run
  cases r with
  | error e => exact hrun
  | ok _ => exact (rules_pruneWriteIndex s₁).trans hrun

theorem rules_applyWriteGroup (s : SessionEngine) (dmls : List BoundDml) :
    (s.applyWriteGroup dmls).1.rules = s.rules := by
  unfold applyWriteGroup
  split
  · rfl
  · exact (rules_pruneWriteIndex _).trans (rules_runGroup s dmls)

/-- An auto-committed DML statement. -/
theorem rules_executeDml (s : SessionEngine) (stmt : DmlStatement) :
    (s.executeDml stmt).1.rules = s.rules := by
  unfold executeDml
  split
  · rfl
  split
  · rfl
  cases stmt with
  | point dml => exact rules_applyDml s.observe dml
  | rows dmls => exact rules_applyWriteGroup s.observe dmls

end SessionEngine

end SteleDb
