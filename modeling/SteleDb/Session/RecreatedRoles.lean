import SteleDb.Session.CatalogReplay

/-!
# Roles that are created again

Dropping a role forgets the grants to it, so that a role created later under the same name does not
inherit them.  The tables that it owns keep their owner, which is a name.

A run is of DDL statements by any roles, with whatever else a session does between them and with
crashes and restarts.  What a role may do at the end of a run is traced to the statements that were
accepted.

* `SessionEngine.policy_applyDdl` : what an accepted statement does to roles and access policy;
* `Within.effect` : what a restart reads back allows no more than the running session does;
* `startsWithNothing_iff` : a role created again starts with nothing just if no table is owned by
  its name when it is created.
-/

namespace SteleDb

/-! ### Runs with restarts -/

/-- An accepted DDL statement, with the role that ran it. -/
structure DdlEvent where
  /-- The role. -/
  role : Name
  /-- The statement. -/
  ddl : SessionEngine.DdlStatement

/-- A step of a run. -/
structure DdlStep where
  /-- What was accepted before. -/
  before : List DdlEvent
  /-- The session. -/
  session : SessionEngine
  /-- The statement that it is put to. -/
  ddl : SessionEngine.DdlStatement

namespace DdlStep

variable (step : DdlStep)

/-- The session after the step. -/
def result : SessionEngine := (step.session.applyDdl step.ddl).1

/-- The statement is accepted. -/
def Accepted : Prop := (step.session.applyDdl step.ddl).2 = .ok ()

instance : Decidable step.Accepted := inferInstanceAs (Decidable (_ = _))

/-- What was accepted, after the step. -/
def after : List DdlEvent :=
  if step.Accepted then step.before ++ [⟨step.session.currentRole, step.ddl⟩] else step.before

end DdlStep

/-- A run over an empty disk that takes every record of the catalog log: its steps, what was
accepted, and the session at its end. -/
inductive DdlLife (inner : ℕ → SystemTimeMicros) :
    List DdlStep → List DdlEvent → SessionEngine → Prop
  | opened : DdlLife inner [] [] (.opened inner)
  | statement {steps : List DdlStep} {events : List DdlEvent} {s s' : SessionEngine}
      (h : DdlLife inner steps events s) (he : Elsewhere s s')
      (ddl : SessionEngine.DdlStatement) :
      DdlLife inner (steps ++ [⟨events, s', ddl⟩]) (DdlStep.after ⟨events, s', ddl⟩)
        (DdlStep.result ⟨events, s', ddl⟩)
  | restart {steps : List DdlStep} {events : List DdlEvent} {s s' : SessionEngine}
      (h : DdlLife inner steps events s) {cut : Cut} (hcut : s.Survives cut)
      {inner' : ℕ → SystemTimeMicros} {faults : DiskFaults} {r : Except SessionError Unit}
      (hrecover : SessionEngine.recover (s.crash cut) inner' faults = .ok (s', r))
      (hhealthy : s'.catalogLog.Healthy) : DdlLife inner steps events s'

/-! ### What a role may claim -/

/-- The event drops or creates a role of this name. -/
def DdlEvent.Redefines (e : DdlEvent) (u : Name) : Prop :=
  (∃ ifExists, e.ddl = .dropUser u ifExists) ∨ ∃ verifier superuser,
    e.ddl = .createUser u verifier superuser

/-- The role was dropped, created again without `SUPERUSER`, and neither dropped nor created since;
`since` is what was accepted after that. -/
def Recreated (u : Name) (events since : List DdlEvent) : Prop :=
  ∃ before role verifier, events = before ++ ⟨role, .createUser u verifier false⟩ :: since ∧
    (∃ e ∈ before, ∃ ifExists, e.ddl = .dropUser u ifExists) ∧ ∀ e ∈ since, ¬e.Redefines u

/-- The role has created the table. -/
def Created (u table : Name) (events : List DdlEvent) : Prop :=
  ∃ e ∈ events, e.role = u ∧ ∃ columns validTime, e.ddl = .createTable table columns validTime

/-- The privilege was granted. -/
def Granted (grantee : Grantee) (table : Name) (privilege : Privilege) (events : List DdlEvent) :
    Prop :=
  ∃ e ∈ events, ∃ privileges, privilege ∈ privileges ∧ e.ddl = .grant table grantee privileges

/-- The session, for a role. -/
def SessionEngine.asRole (s : SessionEngine) (u : Name) : SessionEngine :=
  { s with writePrincipal := u }

/-- Roles that were created again pass only for tables that they created since or that were granted
to them since, or to everyone. -/
structure StartsWithNothing (events : List DdlEvent) (s : SessionEngine) : Prop where
  authorized : ∀ u since, Recreated u events since → ∀ table privilege,
    (s.asRole u).authorizeTable table privilege = .ok () →
      Created u table since ∨ Granted (.role u) table privilege since ∨
        Granted .everyone table privilege events
  owner : ∀ u since, Recreated u events since → ∀ table,
    (s.asRole u).requireTableOwner table = .ok () → Created u table since

/-- A role that was dropped before is created again, without `SUPERUSER`, only while no table is
owned by its name. -/
def DdlStep.OwnsNothing (step : DdlStep) : Prop :=
  ∀ u verifier, step.ddl = .createUser u verifier false → step.Accepted →
    (∃ e ∈ step.before, ∃ ifExists, e.ddl = .dropUser u ifExists) →
      ∀ table : Name, step.session.access.owners[table]? ≠ some u

/-! ### What statements do to the policy -/

namespace SessionEngine

/-- What an accepted statement of a role does to roles and access policy. -/
def DdlStatement.change (role : Name) (users : OrdMap Name Role) (access : AccessControl) :
    DdlStatement → OrdMap Name Role × AccessControl
  | .createTable name .. => (users, access.own name role)
  | .createUser name verifier superuser => (users.insert name ⟨verifier, superuser⟩, access)
  | .alterUserPassword name verifier =>
    (users.insert name ⟨verifier, users[name]?.any Role.superuser⟩, access)
  | .dropUser name _ =>
    if users.contains name then (users.erase name, access.forgetRole name) else (users, access)
  | .grant table grantee privileges => (users, access.grant table grantee privileges)
  | .revoke table grantee privileges => (users, access.revoke table grantee privileges)
  | _ => (users, access)

/-- What an accepted statement found. -/
def DdlStatement.Found (users : OrdMap Name Role) : DdlStatement → Prop
  | .createUser name _ _ => name ≠ wirePrincipal ∧ users.contains name = false
  | .grant _ (.role name) _ => users.contains name = true
  | _ => True

/-- The roles and the access policy of a session. -/
def policy (s : SessionEngine) : OrdMap Name Role × AccessControl := (s.users, s.access)

variable {s : SessionEngine} {at_ : SystemTimeMicros}

/-- A result of a statement: it is accepted and does what it does, or the policy is as it was. -/
def Obeys (ddl : DdlStatement) (s : SessionEngine)
    (r : SessionEngine × Except SessionError Unit) : Prop :=
  (r.2 = .ok () → r.1.policy = ddl.change s.currentRole s.users s.access ∧ ddl.Found s.users) ∧
    (r.2 ≠ .ok () → r.1.policy = s.policy)

theorem obeys_refused (ddl : DdlStatement) {s' : SessionEngine} {e : SessionError}
    (h : s'.policy = s.policy) : Obeys ddl s (s', .error e) :=
  ⟨fun hok => (nomatch hok), fun _ => h⟩

theorem obeys_accepted {ddl : DdlStatement} {s' : SessionEngine}
    (h : s'.policy = ddl.change s.currentRole s.users s.access) (hfound : ddl.Found s.users) :
    Obeys ddl s (s', .ok ()) :=
  ⟨fun _ => ⟨h, hfound⟩, fun hno => absurd rfl hno⟩

theorem obeys_applyCreateTable (h : s.catalogLog.Healthy) (name : Name) (columns : List ColumnDef)
    (validTime : Option ValidTimeSpec) :
    Obeys (.createTable name columns validTime) s
      (s.applyCreateTable at_ name columns validTime) := by
  unfold applyCreateTable
  rcases htier : s.tierFor name validTime.isSome with e | ⟨s₁, tier⟩
  · exact obeys_refused _ rfl
  obtain ⟨next, rfl, -⟩ := tierFor_ok htier
  rcases hc : s.catalog.createTable name columns validTime at_ with e | ⟨catalog, id⟩
  · simp only [hc]
    exact obeys_refused _ rfl
  · have h : ({ s with nextNamespace := next } : SessionEngine).catalogLog.Healthy := h
    rcases logDdl_of_healthy h (.createTable at_ tier.ns name columns validTime
      (some s.currentRole)) with ⟨e, -, hlog⟩ | ⟨payload, -, hlog⟩
    all_goals
      simp only [currentRole] at hlog
      simp only [hc, currentRole, hlog]
    · exact obeys_refused _ rfl
    · exact obeys_accepted rfl trivial

theorem obeys_applyDropTable (h : s.catalogLog.Healthy) (name : Name) (ifExists : Bool) :
    Obeys (.dropTable name ifExists) s (s.applyDropTable at_ name ifExists) := by
  -- the rows may fail to close; the name is dropped all the same, and the policy stays
  have hpolicy : (s.applyDropTable at_ name ifExists).1.policy = s.policy := by
    rcases s.applyDropTable_cases at_ name ifExists with ⟨r, hr, -⟩ |
      ⟨catalog, id, s₁, -, ⟨e, hl, hr⟩ | ⟨hl, ⟨-, hr⟩ | ⟨st, e, clock, -, -, -, -, r, hr⟩⟩⟩
    · rw [hr]
    all_goals
      rw [hr]
      rcases logDdl_of_healthy h (.dropTable at_ name) with ⟨e', -, hlog⟩ | ⟨payload, -, hlog⟩
      all_goals
        rw [hlog] at hl
        cases hl
    all_goals rfl
  exact ⟨fun _ => ⟨hpolicy, trivial⟩, fun _ => hpolicy⟩

theorem obeys_applyCreateIndex (h : s.catalogLog.Healthy) (name table : Name) (kind : IndexKind)
    (columns : List Name) (built : Bool) :
    Obeys (.createIndex name table kind columns built) s
      (s.applyCreateIndex at_ name table kind columns built) := by
  unfold applyCreateIndex
  rcases hdef : Catalog.newIndex name table kind columns with e | def_
  · exact obeys_refused _ rfl
  dsimp only
  rcases hc : s.catalog.createIndex def_ with e | catalog
  · exact obeys_refused _ rfl
  dsimp only
  split_ifs
  · exact obeys_refused _ rfl
  · exact obeys_refused _ rfl
  · exact obeys_refused _ rfl
  · rcases logDdl_of_healthy h (.createIndex at_ name table kind columns) with
      ⟨e, -, hlog⟩ | ⟨payload, -, hlog⟩
    all_goals rw [hlog]
    · exact obeys_refused _ rfl
    · exact obeys_accepted rfl trivial

theorem obeys_applyDropIndex (h : s.catalogLog.Healthy) (name : Name) (ifExists : Bool) :
    Obeys (.dropIndex name ifExists) s (s.applyDropIndex at_ name ifExists) := by
  unfold applyDropIndex
  rcases hc : s.catalog.dropIndex name with e | catalog
  · cases e with
    | unknownIndex n =>
      cases ifExists with
      | false => exact obeys_refused _ rfl
      | true => exact obeys_accepted rfl trivial
    | _ => exact obeys_refused _ rfl
  · rcases logDdl_of_healthy h (.dropIndex at_ name) with ⟨e, -, hlog⟩ | ⟨payload, -, hlog⟩
    all_goals simp only [hlog]
    · exact obeys_refused _ rfl
    · exact obeys_accepted rfl trivial

theorem obeys_createUser (h : s.catalogLog.Healthy) (name : Name) (verifier : ScramVerifier)
    (superuser : Bool) :
    Obeys (.createUser name verifier superuser) s
      (s.applyUserDdl at_ (.createUser name verifier superuser)) := by
  simp only [applyUserDdl]
  split_ifs with hname hdup
  · exact obeys_refused _ rfl
  · exact obeys_refused _ rfl
  · rcases logDdl_of_healthy h (.createUser at_ name verifier superuser) with
      ⟨e, -, hlog⟩ | ⟨payload, -, hlog⟩
    all_goals simp only [hlog]
    · exact obeys_refused _ rfl
    · exact obeys_accepted rfl ⟨hname, Bool.eq_false_iff.2 hdup⟩

theorem obeys_alterUser (h : s.catalogLog.Healthy) (name : Name) (verifier : ScramVerifier) :
    Obeys (.alterUserPassword name verifier) s
      (s.applyUserDdl at_ (.alterUserPassword name verifier)) := by
  simp only [applyUserDdl]
  split_ifs
  · exact obeys_refused _ rfl
  · exact obeys_refused _ rfl
  · rcases logDdl_of_healthy h (.alterUser at_ name verifier) with
      ⟨e, -, hlog⟩ | ⟨payload, -, hlog⟩
    all_goals simp only [hlog]
    · exact obeys_refused _ rfl
    · exact obeys_accepted rfl trivial

theorem obeys_dropUser (h : s.catalogLog.Healthy) (name : Name) (ifExists : Bool) :
    Obeys (.dropUser name ifExists) s (s.applyUserDdl at_ (.dropUser name ifExists)) := by
  simp only [applyUserDdl]
  by_cases hname : name = wirePrincipal
  · rw [if_pos hname]
    exact obeys_refused _ rfl
  rw [if_neg hname]
  -- a role that is not there is refused, or with `IF EXISTS` accepted without effect
  cases hmem : s.users.contains name with
  | false =>
    simp only [Bool.not_false, if_true]
    cases ifExists with
    | false => exact obeys_refused _ rfl
    | true =>
      refine obeys_accepted ?_ trivial
      rw [DdlStatement.change, hmem]
      rfl
  | true =>
    simp only [Bool.not_true, Bool.false_eq_true, if_false]
    rcases logDdl_of_healthy h (.dropUser at_ name) with ⟨e, -, hlog⟩ | ⟨payload, -, hlog⟩
    all_goals simp only [hlog]
    · exact obeys_refused _ rfl
    · refine obeys_accepted ?_ trivial
      rw [DdlStatement.change, if_pos hmem]
      rfl

/-- A grant finds its grantee. -/
theorem contains_of_checkGrant {table name : Name}
    (h : s.checkGrant table (.role name) = .ok ()) : s.users.contains name = true := by
  unfold checkGrant at h
  dsimp only at h
  split_ifs at h with _ hmem
  exact hmem

theorem obeys_applyGrantDdl (h : s.catalogLog.Healthy) (table : Name) (grantee : Grantee)
    {ddl : DdlStatement} {record : CatalogRecord} {change : AccessControl → AccessControl}
    (hchange : (s.users, change s.access) = ddl.change s.currentRole s.users s.access)
    (hfound : s.checkGrant table grantee = .ok () → ddl.Found s.users) :
    Obeys ddl s (s.applyGrantDdl table grantee record change) := by
  unfold applyGrantDdl
  rcases hc : s.checkGrant table grantee with e | _
  · exact obeys_refused _ rfl
  · rcases logDdl_of_healthy h record with ⟨e, -, hlog⟩ | ⟨payload, -, hlog⟩
    all_goals simp only [hlog]
    · exact obeys_refused _ rfl
    · exact obeys_accepted hchange (hfound hc)

/-- **What a statement does to the policy**: what it says if it is accepted, and nothing if it is
refused. -/
theorem policy_applyDdl (h : s.catalogLog.Healthy) (ddl : DdlStatement) :
    Obeys ddl s (s.applyDdl ddl) := by
  unfold applyDdl
  split
  · exact obeys_refused _ rfl
  have h : s.tick.catalogLog.Healthy := h
  cases ddl with
  | createTable name columns validTime => exact obeys_applyCreateTable h ..
  | dropTable name ifExists => exact obeys_applyDropTable h ..
  | createIndex name table kind columns built => exact obeys_applyCreateIndex h ..
  | dropIndex name ifExists => exact obeys_applyDropIndex h ..
  | createUser name verifier superuser => exact obeys_createUser h ..
  | alterUserPassword name verifier => exact obeys_alterUser h ..
  | dropUser name ifExists => exact obeys_dropUser h ..
  | grant table grantee privileges =>
    refine obeys_applyGrantDdl h table grantee rfl fun hc => ?_
    cases grantee with
    | role name => exact contains_of_checkGrant hc
    | everyone => trivial
  | revoke table grantee privileges =>
    exact obeys_applyGrantDdl h table grantee rfl fun _ => trivial

end SessionEngine

/-! ### What a restart reads back -/

/-- `r` has the schemas and roles of `c`, and of its policy a part. -/
structure Within (r c : CatalogState) : Prop where
  catalog : r.catalog = c.catalog
  users : r.users = c.users
  owners : ∀ t o : Name, r.access.owners[t]? = some o → c.access.owners[t]? = some o
  grants : r.access.grants ⊆ c.access.grants

namespace Within

variable {c c' : CatalogState} {at_ : SystemTimeMicros}

protected theorem refl (c : CatalogState) : Within c c :=
  ⟨rfl, rfl, fun _ _ h => h, fun _ h => h⟩

theorem owners_erase {m m' : OrdMap Name Name} {name : Name}
    (h : ∀ t o : Name, m[t]? = some o → m'[t]? = some o) (t o : Name)
    (ht : (m.erase name)[t]? = some o) : (m'.erase name)[t]? = some o := by
  rw [OrdMap.getElem?_erase] at ht ⊢
  split_ifs at ht ⊢ with heq
  exact h t o ht

theorem owners_insert {m m' : OrdMap Name Name} {name owner : Name}
    (h : ∀ t o : Name, m[t]? = some o → m'[t]? = some o) (t o : Name)
    (ht : (m.insert name owner)[t]? = some o) : (m'.insert name owner)[t]? = some o := by
  rw [OrdMap.getElem?_insert] at ht ⊢
  split_ifs at ht ⊢ with heq
  · exact ht
  · exact h t o ht

/-- The replay of a record allows no more than its effect on the running session. -/
theorem effect {r : ReplayedCatalog} {record : CatalogRecord} (h : Within r.catalogState c)
    (he : Effect at_ c record c') :
    ∃ r', r.fold record = .ok r' ∧ Within r'.catalogState c' := by
  have hcat : r.catalog = c.catalog := h.catalog
  have husers : r.users = c.users := h.users
  cases he with
  | @createTable ns name owner columns validTime catalog id hc =>
    refine ⟨_, by simp only [ReplayedCatalog.fold, hcat, hc]; rfl, ?_⟩
    -- both sides start the name afresh
    refine ⟨rfl, husers, owners_insert (owners_erase h.owners), ?_⟩
    exact Finset.filter_subset_filter _ h.grants
  | @dropTable name catalog id hc =>
    refine ⟨_, by simp only [ReplayedCatalog.fold, hcat, hc]; rfl, ?_⟩
    -- only the replay forgets the name, which takes policy away
    refine ⟨rfl, husers, fun t o ht => ?_, (Finset.filter_subset _ _).trans h.grants⟩
    have ht : (r.access.owners.erase name)[t]? = some o := ht
    rw [OrdMap.getElem?_erase] at ht
    split_ifs at ht
    exact h.owners t o ht
  | createIndex hdef hc =>
    refine ⟨_, by simp only [ReplayedCatalog.fold, hdef, hcat, hc]; rfl, ?_⟩
    exact ⟨rfl, husers, h.owners, h.grants⟩
  | dropIndex hc =>
    refine ⟨_, by simp only [ReplayedCatalog.fold, hcat, hc]; rfl, ?_⟩
    exact ⟨rfl, husers, h.owners, h.grants⟩
  | @createUser name verifier superuser hnew =>
    refine ⟨_, rfl, hcat, ?_, h.owners, h.grants⟩
    exact congrArg (fun users : OrdMap Name Role => users.insert name ⟨verifier, superuser⟩) husers
  | @alterUser name verifier =>
    refine ⟨_, rfl, hcat, ?_, h.owners, h.grants⟩
    exact congrArg (fun users : OrdMap Name Role =>
      users.insert name ⟨verifier, users[name]?.any Role.superuser⟩) husers
  | @dropUser name =>
    refine ⟨_, rfl, hcat, ?_, h.owners, Finset.filter_subset_filter _ h.grants⟩
    exact congrArg (fun users : OrdMap Name Role => users.erase name) husers
  | grant hr => exact ⟨_, rfl, hcat, husers, h.owners, Finset.union_subset_union_left h.grants⟩
  | revoke hr => exact ⟨_, rfl, hcat, husers, h.owners, Finset.sdiff_subset_sdiff h.grants le_rfl⟩

end Within

namespace SessionEngine

variable {s s' : SessionEngine}

theorem closeDroppedEras_keeps (now : SystemTimeMicros) (s : SessionEngine)
    (drops : List (Name × SystemTimeMicros)) :
    (closeDroppedEras now s drops).1.catalogState = s.catalogState ∧
      (closeDroppedEras now s drops).1.catalogLog = s.catalogLog := by
  induction drops generalizing s with
  | nil => exact ⟨rfl, rfl⟩
  | cons drop drops ih =>
    obtain ⟨name, dropAt⟩ := drop
    rcases closeDroppedEras_cons now s name dropAt drops with
      heq | ⟨st, e, clock, ⟨r, heq⟩ | ⟨nextTxn, heq⟩⟩
    · rw [heq]
      exact ih s
    · rw [heq]
      exact ⟨rfl, rfl⟩
    · rw [heq]
      exact ih _

/-- A session that recovers has what its catalog log says. -/
theorem catalogState_of_recover {disk : SessionDisk} {inner : ℕ → SystemTimeMicros}
    {faults : DiskFaults} {r : Except SessionError Unit}
    (h : recover disk inner faults = .ok (s, r)) :
    ∃ replayed, ReplayedCatalog.replay disk.catalogLog = .ok replayed ∧
      s.catalogState = replayed.catalogState ∧ s.catalogLog.frames = disk.catalogLog ∧
      s.catalogLog.durable = disk.catalogLog.length := by
  unfold recover at h
  split at h
  · cases h
  next s₁ drops hreopen =>
    have hkeeps := closeDroppedEras_keeps s₁.clock.current (s₁.withFaults faults) drops.toList
    rw [Except.ok.injEq] at h
    rw [h] at hkeeps
    obtain ⟨hstate, hlog⟩ := hkeeps
    unfold reopen at hreopen
    split at hreopen
    · cases hreopen
    next replayed hfold =>
      dsimp only at hreopen
      split at hreopen
      · cases hreopen
      · cases hreopen
        exact ⟨replayed, hfold, hstate, congrArg AppendLog.frames hlog,
          congrArg AppendLog.durable hlog⟩

end SessionEngine

/-! ### Where privileges come from -/

/-- The grants and the ownership of roles that were created again come from statements since. -/
structure Origins (events : List DdlEvent) (c : CatalogState) : Prop where
  notSuperuser : ∀ u since, Recreated u events since → c.superuser u = false
  owner : ∀ u since, Recreated u events since → ∀ t : Name, c.access.owners[t]? = some u →
    Created u t since
  known : ∀ (t u : Name) privilege, (t, Grantee.role u, privilege) ∈ c.access.grants →
    c.users.contains u = true
  granted : ∀ u since, Recreated u events since → ∀ (t : Name) privilege,
    (t, Grantee.role u, privilege) ∈ c.access.grants → Granted (.role u) t privilege since
  everyone : ∀ (t : Name) privilege, (t, Grantee.everyone, privilege) ∈ c.access.grants →
    Granted .everyone t privilege events

section

variable {events since : List DdlEvent} {u t : Name} {e : DdlEvent}

/-- A role is created again by the last statement, or was before it. -/
theorem Recreated.cases (h : Recreated u (events ++ [e]) since) :
    (∃ verifier, e.ddl = .createUser u verifier false ∧ since = [] ∧
      ∃ e ∈ events, ∃ ifExists, e.ddl = .dropUser u ifExists) ∨
    ∃ since', since = since' ++ [e] ∧ Recreated u events since' ∧ ¬e.Redefines u := by
  obtain ⟨before, role, verifier, heq, hdrop, hquiet⟩ := h
  -- the statement that created the role again is the last one, or stands before it
  rcases List.eq_nil_or_concat since with rfl | ⟨since', last, rfl⟩
  · obtain ⟨rfl, hlast⟩ := List.append_inj' heq rfl
    cases hlast
    exact .inl ⟨verifier, rfl, rfl, hdrop⟩
  · rw [List.concat_eq_append] at heq hquiet ⊢
    rw [← List.cons_append, ← List.append_assoc] at heq
    obtain ⟨rfl, hlast⟩ := List.append_inj' heq rfl
    cases hlast
    refine .inr ⟨since', rfl, ⟨before, role, verifier, rfl, hdrop, fun e he => ?_⟩, ?_⟩
    · exact hquiet e (List.mem_append_left _ he)
    · exact hquiet e (List.mem_append_right _ List.mem_cons_self)

theorem Created.append (h : Created u t since) (e : DdlEvent) : Created u t (since ++ [e]) := by
  obtain ⟨e', he', h⟩ := h
  exact ⟨e', List.mem_append_left _ he', h⟩

theorem Granted.append {grantee : Grantee} {privilege : Privilege}
    (h : Granted grantee t privilege since) (e : DdlEvent) :
    Granted grantee t privilege (since ++ [e]) := by
  obtain ⟨e', he', h⟩ := h
  exact ⟨e', List.mem_append_left _ he', h⟩

end

namespace Origins

variable {events : List DdlEvent} {c c' : CatalogState}

theorem within {r : CatalogState} (h : Origins events c) (hw : Within r c) : Origins events r where
  notSuperuser u since hu := by
    rw [CatalogState.superuser, hw.users]
    exact h.notSuperuser u since hu
  owner u since hu t ht := h.owner u since hu t (hw.owners t u ht)
  known t u privilege hg := hw.users ▸ h.known t u privilege (hw.grants hg)
  granted u since hu t privilege hg := h.granted u since hu t privilege (hw.grants hg)
  everyone t privilege hg := h.everyone t privilege (hw.grants hg)

theorem congr (h : Origins events c) (hpolicy : (c'.users, c'.access) = (c.users, c.access)) :
    Origins events c' := by
  obtain ⟨catalog, users, access⟩ := c
  obtain ⟨catalog', users', access'⟩ := c'
  cases hpolicy
  exact ⟨h.notSuperuser, h.owner, h.known, h.granted, h.everyone⟩

/-- What a session of known origins lets roles do. -/
theorem startsWithNothing {s : SessionEngine} (h : Origins events s.catalogState) :
    StartsWithNothing events s where
  authorized u since hu table privilege hok := by
    have hsuper : (s.asRole u).isSuperuser = false := h.notSuperuser u since hu
    rw [SessionEngine.authorizeTable, hsuper, if_neg Bool.false_ne_true] at hok
    split_ifs at hok with howner hholds
    · exact .inl (h.owner u since hu table howner)
    · rw [AccessControl.holds, Bool.or_eq_true, decide_eq_true_iff, decide_eq_true_iff] at hholds
      rcases hholds with hg | hg
      · exact .inr (.inl (h.granted u since hu table privilege hg))
      · exact .inr (.inr (h.everyone table privilege hg))
  owner u since hu table hok := by
    have hsuper : (s.asRole u).isSuperuser = false := h.notSuperuser u since hu
    rw [SessionEngine.requireTableOwner, hsuper, if_neg Bool.false_ne_true] at hok
    split_ifs at hok with howner
    exact h.owner u since hu table howner

/-- What is new of ownership and grants comes from the last statement; a role that it creates has
none. -/
theorem extend {e : DdlEvent} (h : Origins events c)
    (hsuper : ∀ u, ¬e.Redefines u → c'.superuser u = c.superuser u)
    (hnew : ∀ u verifier, e.ddl = .createUser u verifier false →
      (∃ e ∈ events, ∃ ifExists, e.ddl = .dropUser u ifExists) → c'.superuser u = false ∧
        (∀ t : Name, c'.access.owners[t]? ≠ some u) ∧
          ∀ (t : Name) privilege, (t, Grantee.role u, privilege) ∉ c'.access.grants)
    (howner : ∀ t u : Name, c'.access.owners[t]? = some u →
      c.access.owners[t]? = some u ∨ Created u t [e])
    (hgrant : ∀ (t : Name) grantee privilege, (t, grantee, privilege) ∈ c'.access.grants →
      (t, grantee, privilege) ∈ c.access.grants ∨ Granted grantee t privilege [e])
    (hknown : ∀ (t u : Name) privilege, (t, Grantee.role u, privilege) ∈ c'.access.grants →
      c'.users.contains u = true) : Origins (events ++ [e]) c' where
  notSuperuser u since hu := by
    rcases hu.cases with ⟨verifier, hddl, rfl, hdrop⟩ | ⟨since', rfl, hu', hquiet⟩
    · exact (hnew u verifier hddl hdrop).1
    · rw [hsuper u hquiet]
      exact h.notSuperuser u since' hu'
  owner u since hu t ht := by
    rcases hu.cases with ⟨verifier, hddl, rfl, hdrop⟩ | ⟨since', rfl, hu', -⟩
    · exact absurd ht ((hnew u verifier hddl hdrop).2.1 t)
    · rcases howner t u ht with hold | ⟨e', he', hcreated⟩
      · exact (h.owner u since' hu' t hold).append e
      · exact ⟨e', List.mem_append_right _ he', hcreated⟩
  known := hknown
  granted u since hu t privilege hg := by
    rcases hu.cases with ⟨verifier, hddl, rfl, hdrop⟩ | ⟨since', rfl, hu', -⟩
    · exact absurd hg ((hnew u verifier hddl hdrop).2.2 t privilege)
    · rcases hgrant t _ privilege hg with hold | ⟨e', he', hgranted⟩
      · exact (h.granted u since' hu' t privilege hold).append e
      · exact ⟨e', List.mem_append_right _ he', hgranted⟩
  everyone t privilege hg := by
    rcases hgrant t _ privilege hg with hold | ⟨e', he', hgranted⟩
    · exact (h.everyone t privilege hold).append e
    · exact ⟨e', List.mem_append_right _ he', hgranted⟩

/-- A statement that leaves roles alone and creates none. -/
theorem extend_access {e : DdlEvent} (h : Origins events c) (husers : c'.users = c.users)
    (hnew : ∀ u verifier, e.ddl ≠ .createUser u verifier false)
    (howner : ∀ t u : Name, c'.access.owners[t]? = some u →
      c.access.owners[t]? = some u ∨ Created u t [e])
    (hgrant : ∀ (t : Name) grantee privilege, (t, grantee, privilege) ∈ c'.access.grants →
      (t, grantee, privilege) ∈ c.access.grants ∨ Granted grantee t privilege [e])
    (hknown : ∀ (t u : Name) privilege, (t, Grantee.role u, privilege) ∈ c'.access.grants →
      c.users.contains u = true) : Origins (events ++ [e]) c' := by
  refine h.extend (fun u _ => ?_) (fun u verifier hddl => absurd hddl (hnew u verifier)) howner
    hgrant fun t u privilege hg => husers ▸ hknown t u privilege hg
  rw [CatalogState.superuser, CatalogState.superuser, husers]

/-- A statement that changes neither roles nor policy. -/
theorem quiet {e : DdlEvent} (h : Origins events c) (hnew : ∀ u verifier,
    e.ddl ≠ .createUser u verifier false) (hpolicy : (c'.users, c'.access) = (c.users, c.access)) :
    Origins (events ++ [e]) c' := by
  obtain ⟨husers, haccess⟩ := Prod.mk.inj hpolicy
  refine h.extend_access husers hnew (fun t u ht => .inl ?_) (fun t grantee privilege hg => .inl ?_)
    fun t u privilege hg => h.known t u privilege (haccess ▸ hg)
  · rwa [haccess] at ht
  · rwa [haccess] at hg

/-- **An accepted statement** keeps origins, if a role that it creates owns nothing. -/
theorem step {role : Name} {ddl : SessionEngine.DdlStatement} (h : Origins events c)
    (hfound : ddl.Found c.users)
    (hpolicy : (c'.users, c'.access) = ddl.change role c.users c.access)
    (howns : ∀ u verifier, ddl = .createUser u verifier false →
      (∃ e ∈ events, ∃ ifExists, e.ddl = .dropUser u ifExists) →
        ∀ t : Name, c.access.owners[t]? ≠ some u) :
    Origins (events ++ [⟨role, ddl⟩]) c' := by
  cases ddl with
  | createTable name columns validTime =>
    obtain ⟨husers, haccess⟩ := Prod.mk.inj hpolicy
    have hgrants : c'.access.grants ⊆ c.access.grants := by
      rw [haccess]
      exact Finset.filter_subset _ _
    refine h.extend_access husers (fun u verifier hddl => by cases hddl) (fun t u ht => ?_)
      (fun t grantee privilege hg => .inl (hgrants hg))
      fun t u privilege hg => h.known t u privilege (hgrants hg)
    -- the table has a new owner, the others keep theirs
    rw [haccess, AccessControl.own, OrdMap.getElem?_insert] at ht
    split_ifs at ht with heq
    · cases ht
      exact .inr ⟨_, List.mem_cons_self, rfl, columns, validTime, by rw [heq]⟩
    · rw [AccessControl.forgetTable, OrdMap.getElem?_erase, if_neg heq] at ht
      exact .inl ht
  | dropTable name ifExists => exact h.quiet (fun u verifier hddl => by cases hddl) hpolicy
  | createIndex name table kind columns built =>
    exact h.quiet (fun u verifier hddl => by cases hddl) hpolicy
  | dropIndex name ifExists => exact h.quiet (fun u verifier hddl => by cases hddl) hpolicy
  | createUser name verifier superuser =>
    obtain ⟨husers, haccess⟩ := Prod.mk.inj hpolicy
    obtain ⟨hwire, hfresh⟩ := hfound
    refine h.extend (fun u hquiet => ?_) (fun u verifier' hddl hdrop => ?_) (fun t u ht => .inl ?_)
      (fun t grantee privilege hg => .inl ?_) fun t u privilege hg => ?_
    · -- another role keeps what it had
      have hne : name ≠ u := fun heq => hquiet (.inr ⟨verifier, superuser, by rw [heq]⟩)
      rw [CatalogState.superuser, CatalogState.superuser, husers, OrdMap.getElem?_insert,
        if_neg hne]
    · cases hddl
      refine ⟨?_, ?_, fun t privilege hg => ?_⟩
      · rw [CatalogState.superuser, husers, OrdMap.getElem?_insert, if_pos rfl]
        simp [hwire]
      · rw [haccess]
        exact howns name verifier rfl hdrop
      · -- nothing is granted to a name that is not a role
        rw [haccess] at hg
        exact absurd (h.known t name privilege hg) (Bool.eq_false_iff.1 hfresh)
    · rwa [haccess] at ht
    · rwa [haccess] at hg
    · rw [haccess] at hg
      rw [husers]
      have hknown := h.known t u privilege hg
      simp [hknown]
  | alterUserPassword name verifier =>
    obtain ⟨husers, haccess⟩ := Prod.mk.inj hpolicy
    refine h.extend (fun u _ => ?_) (fun u verifier' hddl => by cases hddl) (fun t u ht => .inl ?_)
      (fun t grantee privilege hg => .inl ?_) fun t u privilege hg => ?_
    · rw [CatalogState.superuser, CatalogState.superuser, husers, OrdMap.getElem?_insert]
      split_ifs with heq
      · rw [heq]
        rfl
      · rfl
    · rwa [haccess] at ht
    · rwa [haccess] at hg
    · rw [haccess] at hg
      rw [husers]
      have hknown := h.known t u privilege hg
      simp [hknown]
  | dropUser name ifExists =>
    rw [SessionEngine.DdlStatement.change] at hpolicy
    split_ifs at hpolicy with hmem
    · obtain ⟨husers, haccess⟩ := Prod.mk.inj hpolicy
      have hgrants : c'.access.grants ⊆ c.access.grants := by
        rw [haccess]
        exact Finset.filter_subset _ _
      refine h.extend (fun u hquiet => ?_) (fun u verifier hddl => by cases hddl)
        (fun t u ht => .inl ?_) (fun t grantee privilege hg => .inl (hgrants hg))
        fun t u privilege hg => ?_
      · have hne : name ≠ u := fun heq => hquiet (.inl ⟨ifExists, by rw [heq]⟩)
        rw [CatalogState.superuser, CatalogState.superuser, husers, OrdMap.getElem?_erase,
          if_neg hne]
      · rwa [haccess] at ht
      · have hne : Grantee.role u ≠ .role name := by
          rw [haccess, AccessControl.forgetRole, Finset.mem_filter] at hg
          exact hg.2
        -- the grants to the role went with it, those left are to roles that stay
        have hknown := h.known t u privilege (hgrants hg)
        have hne : name ≠ u := fun heq => hne (by rw [heq])
        rw [husers, Std.ExtTreeMap.contains_eq_isSome_getElem?, OrdMap.getElem?_erase, if_neg hne,
          ← Std.ExtTreeMap.contains_eq_isSome_getElem?]
        exact hknown
    · exact h.quiet (fun u verifier hddl => by cases hddl) hpolicy
  | grant table grantee privileges =>
    obtain ⟨husers, haccess⟩ := Prod.mk.inj hpolicy
    have hgrant : ∀ (t : Name) g privilege, (t, g, privilege) ∈ c'.access.grants →
        (t, g, privilege) ∈ c.access.grants ∨
          (t = table ∧ g = grantee ∧ privilege ∈ privileges) := by
      intro t g privilege hg
      rw [haccess, AccessControl.grant, Finset.mem_union, List.mem_toFinset, List.mem_map] at hg
      refine hg.imp_right ?_
      rintro ⟨p, hp, heq⟩
      cases heq
      exact ⟨rfl, rfl, hp⟩
    refine h.extend_access husers (fun u verifier hddl => by cases hddl) (fun t u ht => .inl ?_)
      (fun t g privilege hg => (hgrant t g privilege hg).imp_right ?_) fun t u privilege hg => ?_
    · rwa [haccess] at ht
    · rintro ⟨rfl, rfl, hp⟩
      exact ⟨_, List.mem_cons_self, privileges, hp, rfl⟩
    · rcases hgrant t _ privilege hg with hold | ⟨-, rfl, -⟩
      · exact h.known t u privilege hold
      · exact hfound
  | revoke table grantee privileges =>
    obtain ⟨husers, haccess⟩ := Prod.mk.inj hpolicy
    have hgrants : c'.access.grants ⊆ c.access.grants := by
      rw [haccess]
      exact Finset.sdiff_subset
    refine h.extend_access husers (fun u verifier hddl => by cases hddl) (fun t u ht => .inl ?_)
      (fun t g privilege hg => .inl (hgrants hg))
      fun t u privilege hg => h.known t u privilege (hgrants hg)
    rwa [haccess] at ht

end Origins

/-! ### Runs -/

/-- The log of a session is whole and durable, and a restart allows no more than the session. -/
structure Living (s : SessionEngine) : Prop where
  healthy : s.catalogLog.Healthy
  durable : s.catalogLog.durable = s.catalogLog.frames.length
  replayed : ∃ r, ReplayedCatalog.replay s.catalogLog.frames = .ok r ∧
    Within r.catalogState s.catalogState

theorem AppendLog.Healthy.durable_append {α : Type} {l : AppendLog α} (h : l.Healthy) (r : α) :
    (l.append r).1.durable = (l.append r).1.frames.length := by
  simp only [AppendLog.append, h.appends.next, h.syncs.next]

namespace Living

variable {s s' : SessionEngine}

theorem elsewhere (h : Living s) (he : Elsewhere s s') : Living s' where
  healthy := he.log ▸ h.healthy
  durable := he.log ▸ h.durable
  replayed := by
    rw [he.log, he.state]
    exact h.replayed

theorem applyDdl (h : Living s) {ddl : SessionEngine.DdlStatement} (hreads : s.Rereads ddl) :
    Living (s.applyDdl ddl).1 := by
  rcases SessionEngine.acts_applyDdl h.healthy ddl with heq | hacts
  · rwa [heq]
  obtain ⟨r, hr, hw⟩ := h.replayed
  rcases hacts.acts with ⟨hstate, hlog⟩ | ⟨payload, heffect, hpayload, hlog⟩
  · exact h.elsewhere ⟨hstate, hlog, s.clock.le_now.trans hacts.clock⟩
  · obtain ⟨r', hfold, hw'⟩ := hw.effect heffect
    obtain ⟨-, hhealthy, hreplay⟩ := h.healthy.append payload
    have hlog : (s.applyDdl ddl).1.catalogLog = (s.catalogLog.append payload).1 := hlog
    refine ⟨hlog ▸ hhealthy, hlog ▸ h.healthy.durable_append payload, r', ?_, hw'⟩
    rw [hlog]
    exact ReplayedCatalog.replay_concat hreplay hr (hreads.readPayload hpayload) hfold

/-- A crash keeps the whole log, and the recovered session is what a restart reads back. -/
theorem recover (h : Living s) {cut : Cut} (hcut : s.Survives cut) {inner : ℕ → SystemTimeMicros}
    {faults : DiskFaults} {r : Except SessionError Unit}
    (hrecover : SessionEngine.recover (s.crash cut) inner faults = .ok (s', r))
    (hhealthy : s'.catalogLog.Healthy) : Living s' ∧ Within s'.catalogState s.catalogState := by
  obtain ⟨replayed, hfold, hstate, hframes, hdurable⟩ :=
    SessionEngine.catalogState_of_recover hrecover
  have hwhole : (s.crash cut).catalogLog = s.catalogLog.frames := by
    refine List.take_of_length_le ?_
    rw [← h.durable]
    exact hcut.1
  rw [hwhole] at hfold hframes hdurable
  obtain ⟨r', hr', hw⟩ := h.replayed
  cases hr'.symm.trans hfold
  refine ⟨⟨hhealthy, ?_, replayed, ?_, ?_⟩, hstate ▸ hw⟩
  · rw [hdurable, hframes]
  · rw [hframes]
    exact hfold
  · rw [hstate]
    exact .refl _

end Living

/-- The steps of a run find healthy logs, and what is accepted is known by its origins. -/
theorem DdlLife.spec {inner : ℕ → SystemTimeMicros} {steps : List DdlStep} {events : List DdlEvent}
    {s : SessionEngine} (h : DdlLife inner steps events s)
    (hreads : ∀ step ∈ steps, step.session.Rereads step.ddl) :
    Living s ∧ (∀ step ∈ steps, step.session.catalogLog.Healthy) ∧
      ((∀ step ∈ steps, step.OwnsNothing) → Origins events s.catalogState ∧
        ∀ step ∈ steps, StartsWithNothing step.after step.result) := by
  induction h with
  | opened =>
    refine ⟨⟨(Tracked.opened inner).healthy, rfl, {}, rfl, .refl _⟩, by simp,
      fun _ => ⟨?_, by simp⟩⟩
    have hnone : ∀ u since, ¬Recreated u [] since := by
      rintro u since ⟨before, role, verifier, heq, -⟩
      exact List.append_ne_nil_of_right_ne_nil _ (List.cons_ne_nil _ _) heq.symm
    refine ⟨fun u since hu => absurd hu (hnone u since),
      fun u since hu => absurd hu (hnone u since),
      fun t u privilege hg => ?_, fun u since hu => absurd hu (hnone u since),
      fun t privilege hg => ?_⟩
    · exact absurd hg (Finset.notMem_empty _)
    · exact absurd hg (Finset.notMem_empty _)
  | @statement steps events s s' h he ddl ih =>
    rw [List.forall_mem_append, List.forall_mem_singleton] at hreads
    obtain ⟨hliving, hhealthy, horigins⟩ := ih hreads.1
    have hliving := hliving.elsewhere he
    refine ⟨hliving.applyDdl hreads.2, List.forall_mem_append.2 ⟨hhealthy,
      List.forall_mem_singleton.2 hliving.healthy⟩, fun hall => ?_⟩
    obtain ⟨hall, hlast⟩ := List.forall_mem_append.1 hall
    rw [List.forall_mem_singleton] at hlast
    obtain ⟨hbefore, hsteps⟩ := horigins hall
    have hobeys := SessionEngine.policy_applyDdl hliving.healthy ddl
    have hafter : Origins (DdlStep.after ⟨events, s', ddl⟩)
        (DdlStep.result ⟨events, s', ddl⟩).catalogState := by
      rw [← he.state] at hbefore
      rw [DdlStep.after]
      split_ifs with haccepted
      · obtain ⟨hpolicy, hfound⟩ := hobeys.1 haccepted
        exact hbefore.step hfound hpolicy fun u verifier hddl => hlast u verifier hddl haccepted
      · exact hbefore.congr (hobeys.2 haccepted)
    exact ⟨hafter, List.forall_mem_append.2 ⟨hsteps,
      List.forall_mem_singleton.2 hafter.startsWithNothing⟩⟩
  | restart h hcut hrecover hhealthy' ih =>
    obtain ⟨hliving, hhealthy, horigins⟩ := ih hreads
    obtain ⟨hliving', hwithin⟩ := hliving.recover hcut hrecover hhealthy'
    exact ⟨hliving', hhealthy, fun hall => ⟨(horigins hall).1.within hwithin, (horigins hall).2⟩⟩

/-- A run with one more statement, which is accepted. -/
theorem DdlLife.accepted {inner : ℕ → SystemTimeMicros} {steps : List DdlStep}
    {events : List DdlEvent} {s s' : SessionEngine} (h : DdlLife inner steps events s)
    (he : Elsewhere s s') (ddl : SessionEngine.DdlStatement)
    (hok : (s'.applyDdl ddl).2 = .ok ()) :
    DdlLife inner (steps ++ [⟨events, s', ddl⟩]) (events ++ [⟨s'.currentRole, ddl⟩])
      (s'.applyDdl ddl).1 := by
  have haccepted : DdlStep.Accepted ⟨events, s', ddl⟩ := hok
  have hstep := h.statement he ddl
  rw [DdlStep.after, if_pos haccepted] at hstep
  exact hstep

/-- A role that owns a table when it is created starts with that. -/
theorem DdlStep.ownsNothing_of_startsWithNothing {step : DdlStep}
    (hhealthy : step.session.catalogLog.Healthy)
    (h : StartsWithNothing step.after step.result) : step.OwnsNothing := by
  intro u verifier hddl haccepted hdrop table howner
  have hobeys := SessionEngine.policy_applyDdl hhealthy step.ddl
  obtain ⟨hpolicy, -⟩ := hobeys.1 haccepted
  have haccess : step.result.access = step.session.access := by
    rw [hddl] at hpolicy
    rw [DdlStep.result, hddl]
    exact congrArg Prod.snd hpolicy
  have hrecreated : Recreated u step.after [] := by
    refine ⟨step.before, step.session.currentRole, verifier, ?_, hdrop, by simp⟩
    rw [DdlStep.after, if_pos haccepted, hddl]
  have hok : (step.result.asRole u).requireTableOwner table = .ok () := by
    have howner : (step.result.asRole u).access.owners[table]? = some u := haccess ▸ howner
    rw [SessionEngine.requireTableOwner]
    split_ifs with hsuper hno
    · rfl
    · rfl
    · exact absurd howner hno
  obtain ⟨e, he, -⟩ := h.owner u [] hrecreated table hok
  exact List.not_mem_nil he

/-- **A role created again starts with nothing**, after every statement of a run with restarts, just
if no table is owned by its name when it is created; and then also at the end of the run; provided
that what is logged is read back. -/
theorem startsWithNothing_iff {inner : ℕ → SystemTimeMicros} {steps : List DdlStep}
    {events : List DdlEvent} {s : SessionEngine} (h : DdlLife inner steps events s)
    (hreads : ∀ step ∈ steps, step.session.Rereads step.ddl) :
    ((∀ step ∈ steps, StartsWithNothing step.after step.result) ↔
      ∀ step ∈ steps, step.OwnsNothing) ∧
    ((∀ step ∈ steps, step.OwnsNothing) → StartsWithNothing events s) := by
  obtain ⟨-, hhealthy, horigins⟩ := h.spec hreads
  refine ⟨⟨fun hall step hstep => ?_, fun hall => (horigins hall).2⟩,
    fun hall => (horigins hall).1.startsWithNothing⟩
  exact DdlStep.ownsNothing_of_startsWithNothing (hhealthy step hstep) (hall step hstep)

/-! ### A role that inherits -/

/-- `DROP USER a`. -/
def dropUserA : SessionEngine.DdlStatement := .dropUser [97] false

/-- The role `a` has created `t`, and the built-in superuser is back. -/
def ownedT : SessionEngine :=
  { (connectedA.applyDdl createTableT).1 with writePrincipal := wirePrincipal }

/-- The role `a` is dropped and created again. -/
def inherited : SessionEngine := ((ownedT.applyDdl dropUserA).1.applyDdl createUserA).1

/-- The statements of the run, and what was accepted before each. -/
def inheritedSteps : List DdlStep :=
  [⟨[], .opened fun _ => 0, createUserA⟩,
   ⟨[⟨wirePrincipal, createUserA⟩], connectedA, createTableT⟩,
   ⟨[⟨wirePrincipal, createUserA⟩, ⟨[97], createTableT⟩], ownedT, dropUserA⟩,
   ⟨[⟨wirePrincipal, createUserA⟩, ⟨[97], createTableT⟩, ⟨wirePrincipal, dropUserA⟩],
     (ownedT.applyDdl dropUserA).1, createUserA⟩]

/-- What was accepted. -/
def inheritedEvents : List DdlEvent :=
  [⟨wirePrincipal, createUserA⟩, ⟨[97], createTableT⟩, ⟨wirePrincipal, dropUserA⟩,
    ⟨wirePrincipal, createUserA⟩]

theorem ddlLife_inherited : DdlLife (fun _ => 0) inheritedSteps inheritedEvents inherited := by
  have h₀ : DdlLife (fun _ => 0) [] [] (.opened fun _ => 0) := .opened
  have h₁ := h₀.accepted ⟨rfl, rfl, le_rfl⟩ createUserA (by decide)
  have hconnects :
      Elsewhere ((SessionEngine.opened fun _ => 0).applyDdl createUserA).1 connectedA :=
    ⟨rfl, rfl, le_rfl⟩
  have h₂ := h₁.accepted hconnects createTableT (by decide)
  have hback : Elsewhere (connectedA.applyDdl createTableT).1 ownedT := ⟨rfl, rfl, le_rfl⟩
  have h₃ := h₂.accepted hback dropUserA (by decide)
  exact h₃.accepted ⟨rfl, rfl, le_rfl⟩ createUserA (by decide)

/-- The new role owns the table of the old one. -/
theorem recreated_role_inherits : ¬∀ (inner : ℕ → SystemTimeMicros) (steps : List DdlStep)
    (events : List DdlEvent) (s : SessionEngine), DdlLife inner steps events s →
      StartsWithNothing events s := by
  intro hall
  have hstarts := hall _ _ _ _ ddlLife_inherited
  have hrecreated : Recreated [97] inheritedEvents [] :=
    ⟨[⟨wirePrincipal, createUserA⟩, ⟨[97], createTableT⟩, ⟨wirePrincipal, dropUserA⟩],
      wirePrincipal, ⟨4096, [], fun _ => 0, fun _ => 0⟩, rfl,
      ⟨⟨wirePrincipal, dropUserA⟩, by simp, false, rfl⟩, by simp⟩
  have howner : (inherited.asRole [97]).requireTableOwner [116] = .ok () := by decide
  obtain ⟨e, he, -⟩ := hstarts.owner [97] [] hrecreated [116] howner
  exact List.not_mem_nil he

/-- The role `a` comes and goes without a table. -/
def untabledSteps : List DdlStep :=
  [⟨[], .opened fun _ => 0, createUserA⟩,
   ⟨[⟨wirePrincipal, createUserA⟩], ((SessionEngine.opened fun _ => 0).applyDdl createUserA).1,
     dropUserA⟩,
   ⟨[⟨wirePrincipal, createUserA⟩, ⟨wirePrincipal, dropUserA⟩],
     (((SessionEngine.opened fun _ => 0).applyDdl createUserA).1.applyDdl dropUserA).1,
     createUserA⟩]

theorem ddlLife_untabled : DdlLife (fun _ => 0) untabledSteps
    [⟨wirePrincipal, createUserA⟩, ⟨wirePrincipal, dropUserA⟩, ⟨wirePrincipal, createUserA⟩]
    ((((SessionEngine.opened fun _ => 0).applyDdl createUserA).1.applyDdl dropUserA).1.applyDdl
      createUserA).1 := by
  have h₀ : DdlLife (fun _ => 0) [] [] (.opened fun _ => 0) := .opened
  have h₁ := h₀.accepted ⟨rfl, rfl, le_rfl⟩ createUserA (by decide)
  have h₂ := h₁.accepted ⟨rfl, rfl, le_rfl⟩ dropUserA (by decide)
  exact h₂.accepted ⟨rfl, rfl, le_rfl⟩ createUserA (by decide)

theorem startsWithNothing_untabled :
    untabledSteps.Forall fun step => StartsWithNothing step.after step.result := by
  have hreads : ∀ step ∈ untabledSteps, step.session.Rereads step.ddl := by
    intro step hstep
    simp only [untabledSteps, List.mem_cons, List.not_mem_nil, or_false] at hstep
    rcases hstep with rfl | rfl | rfl
    all_goals exact ⟨⟨by decide, by decide, trivial⟩, by decide⟩
  refine List.forall_iff_forall_mem.2 ((startsWithNothing_iff ddlLife_untabled hreads).1.2
    fun step hstep => ?_)
  have hnone : ∀ table : Name, step.session.access.owners[table]? = none := by
    intro table
    have howners : step.session.access.owners.isEmpty = true := by
      revert step
      decide
    simp [Std.ExtTreeMap.isEmpty_iff.1 howners]
  intro u verifier _ _ _ table howner
  rw [hnone table] at howner
  cases howner

end SteleDb
