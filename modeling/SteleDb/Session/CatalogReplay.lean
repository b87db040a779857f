import SteleDb.Lib.ExceptMap
import SteleDb.Session.Eras
import SteleDb.Session.Recover

/-!
# Replaying the catalog log

An accepted DDL statement appends one record to the catalog log and then changes the schemas, the
roles and the access policy of the running session; a restart reads the payloads back and changes
them again, record by record, with code of its own.  The two agree on schemas and roles.  They
differ at a `DROP TABLE`: the restart forgets the owner of the name and the grants on it, the
running session keeps them.  And a record may be read back as another one: a grant to the role with
the empty name becomes a grant to `PUBLIC` (`unnamed_grantee_reads_public`).

* `SessionEngine.acts_applyDdl` : a statement logs nothing and changes nothing, or logs its record
  and has its effect;
* `Tracks.effect` : the fold of the longer log keeps up with an effect;
* `Tracks.replays_iff` : a state and its replay decide alike just if no forgotten policy would
  have let a role through;
* `replays_iff_forgetsAlike` : over whole runs.
-/

namespace SteleDb

/-! ### What the catalog log is about -/

/-- Schemas, roles and access policy. -/
structure CatalogState where
  /-- The schemas. -/
  catalog : Catalog
  /-- The roles. -/
  users : OrdMap Name Role
  /-- The access policy. -/
  access : AccessControl

/-- The part of a session the catalog log is about. -/
def SessionEngine.catalogState (s : SessionEngine) : CatalogState := ⟨s.catalog, s.users, s.access⟩

/-- The part of a replay a session starts with. -/
def ReplayedCatalog.catalogState (r : ReplayedCatalog) : CatalogState :=
  ⟨r.catalog, r.users, r.access⟩

namespace AccessControl

/-- The grants on a table. -/
def grantsOn (a : AccessControl) (table : Name) : Finset (Grantee × Privilege) :=
  (a.grants.filter fun g => g.1 = table).image Prod.snd

/-- What the policy says about a table: its owner and the grants on it. -/
def policy (a : AccessControl) (table : Name) : Option Name × Finset (Grantee × Privilege) :=
  (a.owners[table]?, a.grantsOn table)

/-- The policy with a new owner of a name that starts afresh. -/
def own (a : AccessControl) (table owner : Name) : AccessControl :=
  let a := a.forgetTable table
  { a with owners := a.owners.insert table owner }

variable {a a' : AccessControl} {name t : Name} {grantee : Grantee} {privileges : List Privilege}

theorem mem_grantsOn {g : Grantee × Privilege} : g ∈ a.grantsOn t ↔ (t, g) ∈ a.grants := by
  rw [grantsOn, Finset.mem_image]
  constructor
  · rintro ⟨⟨t', g'⟩, hg, rfl⟩
    obtain ⟨hmem, rfl⟩ := Finset.mem_filter.1 hg
    exact hmem
  · intro h
    exact ⟨(t, g), Finset.mem_filter.2 ⟨h, rfl⟩, rfl⟩

theorem policy_forgetTable :
    (a.forgetTable name).policy t = if name = t then (none, ∅) else a.policy t := by
  split_ifs with h
  · subst h
    refine Prod.ext ?_ (Finset.ext fun g => ?_)
    · simp [policy, forgetTable]
    · simp [policy, mem_grantsOn, forgetTable]
  · refine Prod.ext ?_ (Finset.ext fun g => ?_)
    · simp [policy, forgetTable, OrdMap.getElem?_erase, h]
    · simp [policy, mem_grantsOn, forgetTable, Ne.symm h]

theorem policy_own {owner : Name} :
    (a.own name owner).policy t = if name = t then (some owner, ∅) else a.policy t := by
  have h := @policy_forgetTable a name t
  split_ifs with ht
  · subst ht
    rw [if_pos rfl] at h
    have hgrants : (a.own name owner).grantsOn name = ∅ := congrArg Prod.snd h
    refine Prod.ext ?_ hgrants
    simp [policy, own]
  · rw [if_neg ht] at h
    rw [← h]
    refine Prod.ext ?_ rfl
    simp [policy, own, OrdMap.getElem?_insert, ht]

theorem policy_grant_of_ne (h : name ≠ t) :
    (a.grant name grantee privileges).policy t = a.policy t := by
  refine Prod.ext rfl (Finset.ext fun g => ?_)
  simp [policy, mem_grantsOn, grant, h]

theorem policy_revoke_of_ne (h : name ≠ t) :
    (a.revoke name grantee privileges).policy t = a.policy t := by
  refine Prod.ext rfl (Finset.ext fun g => ?_)
  simp [policy, mem_grantsOn, revoke, h]

/-- Granting keeps two policies alike on a table they agree on. -/
theorem policy_grant_congr (h : a.policy t = a'.policy t) :
    (a.grant name grantee privileges).policy t = (a'.grant name grantee privileges).policy t := by
  obtain ⟨howner, hgrants⟩ := Prod.mk.inj h
  refine Prod.ext howner (Finset.ext fun g => ?_)
  have hg : (t, g) ∈ a.grants ↔ (t, g) ∈ a'.grants := by
    rw [← mem_grantsOn, ← mem_grantsOn, hgrants]
  simp [policy, mem_grantsOn, grant, hg]

theorem policy_revoke_congr (h : a.policy t = a'.policy t) :
    (a.revoke name grantee privileges).policy t = (a'.revoke name grantee privileges).policy t := by
  obtain ⟨howner, hgrants⟩ := Prod.mk.inj h
  refine Prod.ext howner (Finset.ext fun g => ?_)
  have hg : (t, g) ∈ a.grants ↔ (t, g) ∈ a'.grants := by
    rw [← mem_grantsOn, ← mem_grantsOn, hgrants]
  simp [policy, mem_grantsOn, revoke, hg]

theorem policy_forgetRole_congr (h : a.policy t = a'.policy t) :
    (a.forgetRole name).policy t = (a'.forgetRole name).policy t := by
  obtain ⟨howner, hgrants⟩ := Prod.mk.inj h
  refine Prod.ext howner (Finset.ext fun g => ?_)
  have hg : (t, g) ∈ a.grants ↔ (t, g) ∈ a'.grants := by
    rw [← mem_grantsOn, ← mem_grantsOn, hgrants]
  simp [policy, mem_grantsOn, forgetRole, hg]

theorem policy_forgetRole_of_none (h : a.policy t = (none, ∅)) :
    (a.forgetRole name).policy t = (none, ∅) := by
  have hempty : ({} : AccessControl).policy t = (none, ∅) := by simp [policy, grantsOn]
  rw [policy_forgetRole_congr (h.trans hempty.symm)]
  simp [policy, grantsOn, forgetRole]

end AccessControl

namespace CatalogState

variable (c : CatalogState)

/-- The role passes every check. -/
def superuser (role : Name) : Bool := role = wirePrincipal || c.users[role]?.any Role.superuser

/-- The role is let through. -/
def passes (role table : Name) (privilege : Privilege) : Bool :=
  c.superuser role || c.access.owners[table]? = some role || c.access.holds role table privilege

/-- The name is live. -/
def Live (table : Name) : Prop := (c.catalog.openVersion table).isSome

end CatalogState

/-! ### Effects of statements -/

/-- What a logged statement does, at instant `at_`, to the running session. -/
inductive Effect (at_ : SystemTimeMicros) (c : CatalogState) : CatalogRecord → CatalogState → Prop
  | createTable {ns : ℕ} {name owner : Name} {columns : List ColumnDef}
      {validTime : Option ValidTimeSpec} {catalog : Catalog} {id : SchemaId}
      (h : c.catalog.createTable name columns validTime at_ = .ok (catalog, id)) :
      Effect at_ c (.createTable at_ ns name columns validTime (some owner))
        ⟨catalog, c.users, c.access.own name owner⟩
  | dropTable {name : Name} {catalog : Catalog} {id : SchemaId}
      (h : c.catalog.dropTable name at_ = .ok (catalog, id)) :
      Effect at_ c (.dropTable at_ name) ⟨catalog, c.users, c.access⟩
  | createIndex {name table : Name} {kind : IndexKind} {columns : List Name} {def_ : IndexDef}
      {catalog : Catalog} (hdef : Catalog.newIndex name table kind columns = .ok def_)
      (h : c.catalog.createIndex def_ = .ok catalog) :
      Effect at_ c (.createIndex at_ name table kind columns) ⟨catalog, c.users, c.access⟩
  | dropIndex {name : Name} {catalog : Catalog} (h : c.catalog.dropIndex name = .ok catalog) :
      Effect at_ c (.dropIndex at_ name) ⟨catalog, c.users, c.access⟩
  | createUser {name : Name} {verifier : ScramVerifier} {superuser : Bool}
      (h : c.users.contains name = false) :
      Effect at_ c (.createUser at_ name verifier superuser)
        ⟨c.catalog, c.users.insert name ⟨verifier, superuser⟩, c.access⟩
  | alterUser {name : Name} {verifier : ScramVerifier} :
      Effect at_ c (.alterUser at_ name verifier)
        ⟨c.catalog, c.users.insert name ⟨verifier, c.users[name]?.any Role.superuser⟩, c.access⟩
  | dropUser {name : Name} :
      Effect at_ c (.dropUser at_ name) ⟨c.catalog, c.users.erase name, c.access.forgetRole name⟩
  | grant {table : Name} {grantee : Grantee} {privileges : List Privilege}
      (h : (c.catalog.resolve table at_).isSome) :
      Effect at_ c (.grant at_ table grantee privileges)
        ⟨c.catalog, c.users, c.access.grant table grantee privileges⟩
  | revoke {table : Name} {grantee : Grantee} {privileges : List Privilege}
      (h : (c.catalog.resolve table at_).isSome) :
      Effect at_ c (.revoke at_ table grantee privileges)
        ⟨c.catalog, c.users, c.access.revoke table grantee privileges⟩

/-- The disk takes every record of the log, and has. -/
structure AppendLog.Healthy {α : Type} (l : AppendLog α) : Prop where
  appends : l.appendFaults.Clean
  syncs : l.syncFaults.Clean
  whole : ∀ frame ∈ l.frames, frame.isSome

namespace AppendLog.Healthy

variable {α : Type} {l : AppendLog α}

/-- An append to a healthy log. -/
theorem append (h : l.Healthy) (r : α) :
    (l.append r).2 = true ∧ (l.append r).1.Healthy ∧
      replay (l.append r).1.frames = replay l.frames ++ [r] := by
  have happ : l.append r = ({ l with
      frames := l.frames ++ [some r], durable := (l.frames ++ [some r]).length,
      appendFaults := l.appendFaults.tail, syncFaults := l.syncFaults.tail }, true) := by
    simp only [AppendLog.append, h.appends.next, h.syncs.next]
  have hwhole : ∀ frame ∈ l.frames ++ [some r], frame.isSome := by
    intro frame hframe
    rcases List.mem_append.1 hframe with hframe | hframe
    · exact h.whole frame hframe
    · rw [List.mem_singleton.1 hframe]
      rfl
  rw [happ]
  refine ⟨rfl, ⟨h.appends.tail, h.syncs.tail, hwhole⟩, ?_⟩
  simp only [replay, List.takeWhile_eq_self_iff.2 hwhole, List.takeWhile_eq_self_iff.2 h.whole,
    List.filterMap_append]
  rfl

end AppendLog.Healthy

/-- The record drops a table or a role. -/
def CatalogRecord.Drops : CatalogRecord → Prop
  | .dropTable .. => True
  | .dropUser .. => True
  | _ => False

/-- The record of a statement that is accepted at instant `at_`. -/
def SessionEngine.ddlRecord (s : SessionEngine) (at_ : SystemTimeMicros) :
    SessionEngine.DdlStatement → CatalogRecord
  | .createTable name columns validTime =>
    .createTable at_ ((s.tables[name]?.map TableState.ns).getD s.nextNamespace) name columns
      validTime (some s.currentRole)
  | .dropTable name _ => .dropTable at_ name
  | .createIndex name table kind columns _ => .createIndex at_ name table kind columns
  | .dropIndex name _ => .dropIndex at_ name
  | .createUser name verifier superuser => .createUser at_ name verifier superuser
  | .alterUserPassword name verifier => .alterUser at_ name verifier
  | .dropUser name _ => .dropUser at_ name
  | .grant table grantee privileges => .grant at_ table grantee privileges
  | .revoke table grantee privileges => .revoke at_ table grantee privileges

/-- From `s` a statement at instant `at_` leads to `s'`: it changes and logs nothing, or logs its
record and has its effect. -/
structure Acts (ddl : SessionEngine.DdlStatement) (at_ : SystemTimeMicros) (s s' : SessionEngine) :
    Prop where
  clock : s.clock.highWater ≤ s'.clock.highWater
  acts : (s'.catalogState = s.catalogState ∧ s'.catalogLog = s.catalogLog) ∨
    ∃ payload, Effect at_ s.catalogState (s.ddlRecord at_ ddl) s'.catalogState ∧
      (s.ddlRecord at_ ddl).framedPayload = .ok payload ∧
      s'.catalogLog = (s.catalogLog.append payload).1

namespace SessionEngine

variable {s : SessionEngine} {at_ : SystemTimeMicros}

theorem acts_refl (ddl : DdlStatement) (at_ : SystemTimeMicros) (s : SessionEngine) :
    Acts ddl at_ s s :=
  ⟨le_rfl, .inl ⟨rfl, rfl⟩⟩

/-- A healthy log refuses only a record that cannot be framed. -/
theorem logDdl_of_healthy (h : s.catalogLog.Healthy) (record : CatalogRecord) :
    (∃ e, record.framedPayload = .error e ∧ s.logDdl record = (s, .error .catalogLog)) ∨
      ∃ payload, record.framedPayload = .ok payload ∧
        s.logDdl record =
          ({ s with catalogLog := (s.catalogLog.append payload).1 }, .ok ()) := by
  -- the only other refusal is a failed append
  unfold logDdl
  rcases hframe : record.framedPayload with e | payload
  · exact .inl ⟨e, rfl, rfl⟩
  · refine .inr ⟨payload, rfl, ?_⟩
    have happ := (h.append payload).1
    rcases hlog : s.catalogLog.append payload with ⟨log, _ | _⟩
    · rw [hlog] at happ
      cases happ
    · simp only [hlog]

/-- A tier of a created table costs at most a slice of the disk. -/
theorem tierFor_ok {s' : SessionEngine} {tier : TableState} {name : Name} {validTime : Bool}
    (h : s.tierFor name validTime = .ok (s', tier)) :
    ∃ nextNamespace, s' = { s with nextNamespace } ∧
      tier.ns = (s.tables[name]?.map TableState.ns).getD s.nextNamespace := by
  unfold tierFor at h
  split at h
  · next prev hprev =>
    split_ifs at h
    cases h
    exact ⟨_, rfl, by rw [hprev]; rfl⟩
  · next hprev =>
    cases h
    exact ⟨_, rfl, by rw [hprev]; rfl⟩

theorem acts_applyCreateTable (h : s.catalogLog.Healthy) (name : Name) (columns : List ColumnDef)
    (validTime : Option ValidTimeSpec) :
    Acts (.createTable name columns validTime) at_ s
      (s.applyCreateTable at_ name columns validTime).1 := by
  unfold applyCreateTable
  rcases htier : s.tierFor name validTime.isSome with e | ⟨s₁, tier⟩
  · exact acts_refl _ at_ s
  obtain ⟨next, rfl, hns⟩ := tierFor_ok htier
  rcases hc : s.catalog.createTable name columns validTime at_ with e | ⟨catalog, id⟩
  · simp only [hc]
    exact ⟨le_rfl, .inl ⟨rfl, rfl⟩⟩
  · have h : ({ s with nextNamespace := next } : SessionEngine).catalogLog.Healthy := h
    rcases logDdl_of_healthy h (.createTable at_ tier.ns name columns validTime
      (some s.currentRole)) with ⟨e, -, hlog⟩ | ⟨payload, hpayload, hlog⟩
    · simp only [hc, currentRole] at hlog ⊢
      simp only [hlog]
      exact ⟨le_rfl, .inl ⟨rfl, rfl⟩⟩
    · rw [hns] at hpayload
      simp only [hc, currentRole] at hlog ⊢
      simp only [hlog]
      exact ⟨le_rfl, .inr ⟨payload, .createTable hc, hpayload, rfl⟩⟩

theorem acts_applyDropTable (h : s.catalogLog.Healthy) (name : Name) (ifExists : Bool) :
    Acts (.dropTable name ifExists) at_ s (s.applyDropTable at_ name ifExists).1 := by
  rcases s.applyDropTable_cases at_ name ifExists with ⟨r, hr, -⟩ |
    ⟨catalog, id, s₁, hc, ⟨e, hl, hr⟩ | ⟨hl, ⟨-, hr⟩ | ⟨st, e, clock, -, -, -, hclock, r, hr⟩⟩⟩
  · rw [hr]
    exact acts_refl _ at_ s
  all_goals
    rw [hr]
    rcases logDdl_of_healthy h (.dropTable at_ name) with ⟨e', -, hlog⟩ | ⟨payload, hp, hlog⟩
    all_goals
      rw [hlog] at hl
      cases hl
  · exact acts_refl _ at_ s
  · exact ⟨le_rfl, .inr ⟨payload, .dropTable hc, hp, rfl⟩⟩
  · exact ⟨hclock, .inr ⟨payload, .dropTable hc, hp, rfl⟩⟩

theorem acts_applyCreateIndex (h : s.catalogLog.Healthy) (name table : Name) (kind : IndexKind)
    (columns : List Name) (built : Bool) :
    Acts (.createIndex name table kind columns built) at_ s
      (s.applyCreateIndex at_ name table kind columns built).1 := by
  unfold applyCreateIndex
  -- the record is logged last, after every check
  rcases hdef : Catalog.newIndex name table kind columns with e | def_
  · exact acts_refl _ at_ s
  dsimp only
  rcases hc : s.catalog.createIndex def_ with e | catalog
  · exact acts_refl _ at_ s
  dsimp only
  split_ifs
  · exact acts_refl _ at_ s
  · exact acts_refl _ at_ s
  · exact acts_refl _ at_ s
  · rcases logDdl_of_healthy h (.createIndex at_ name table kind columns) with
      ⟨e, -, hlog⟩ | ⟨payload, hp, hlog⟩
    · rw [hlog]
      exact acts_refl _ at_ s
    · rw [hlog]
      exact ⟨le_rfl, .inr ⟨payload, .createIndex hdef hc, hp, rfl⟩⟩

theorem acts_applyDropIndex (h : s.catalogLog.Healthy) (name : Name) (ifExists : Bool) :
    Acts (.dropIndex name ifExists) at_ s (s.applyDropIndex at_ name ifExists).1 := by
  unfold applyDropIndex
  rcases hc : s.catalog.dropIndex name with e | catalog
  · cases e <;> exact acts_refl _ at_ s
  · rcases logDdl_of_healthy h (.dropIndex at_ name) with ⟨e, -, hlog⟩ | ⟨payload, hp, hlog⟩
    · simp only [hlog]
      exact acts_refl _ at_ s
    · simp only [hlog]
      exact ⟨le_rfl, .inr ⟨payload, .dropIndex hc, hp, rfl⟩⟩

theorem acts_applyUserDdl (h : s.catalogLog.Healthy) (ddl : DdlStatement) :
    Acts ddl at_ s (s.applyUserDdl at_ ddl).1 := by
  unfold applyUserDdl
  split
  · next name verifier superuser =>
    split_ifs with hname hdup
    · exact acts_refl _ at_ s
    · exact acts_refl _ at_ s
    · rcases logDdl_of_healthy h (.createUser at_ name verifier superuser) with
        ⟨e, -, hlog⟩ | ⟨payload, hp, hlog⟩
      · simp only [hlog]
        exact acts_refl _ at_ s
      · simp only [hlog]
        exact ⟨le_rfl, .inr ⟨payload, .createUser (Bool.not_eq_true _ ▸ hdup), hp, rfl⟩⟩
  · next name verifier =>
    split_ifs
    · exact acts_refl _ at_ s
    · exact acts_refl _ at_ s
    · rcases logDdl_of_healthy h (.alterUser at_ name verifier) with
        ⟨e, -, hlog⟩ | ⟨payload, hp, hlog⟩
      · simp only [hlog]
        exact acts_refl _ at_ s
      · simp only [hlog]
        exact ⟨le_rfl, .inr ⟨payload, .alterUser, hp, rfl⟩⟩
  · next name ifExists =>
    split_ifs
    · exact acts_refl _ at_ s
    · exact acts_refl _ at_ s
    · exact acts_refl _ at_ s
    · rcases logDdl_of_healthy h (.dropUser at_ name) with ⟨e, -, hlog⟩ | ⟨payload, hp, hlog⟩
      · simp only [hlog]
        exact acts_refl _ at_ s
      · simp only [hlog]
        exact ⟨le_rfl, .inr ⟨payload, .dropUser, hp, rfl⟩⟩
  · exact acts_refl _ at_ s

/-- `GRANT` and `REVOKE` ask for a table that resolves. -/
theorem resolve_of_checkGrant {table : Name} {grantee : Grantee}
    (h : s.checkGrant table grantee = .ok ()) :
    (s.catalog.resolve table s.clock.current).isSome := by
  unfold checkGrant at h
  split_ifs at h with hnone
  simpa [Option.isSome_iff_ne_none] using hnone

theorem acts_applyGrantDdl (h : s.catalogLog.Healthy) (ddl : DdlStatement) (table : Name)
    (grantee : Grantee) {change : AccessControl → AccessControl}
    (heffect : (s.catalog.resolve table s.clock.current).isSome →
      Effect at_ s.catalogState (s.ddlRecord at_ ddl) ⟨s.catalog, s.users, change s.access⟩) :
    Acts ddl at_ s (s.applyGrantDdl table grantee (s.ddlRecord at_ ddl) change).1 := by
  unfold applyGrantDdl
  rcases hc : s.checkGrant table grantee with e | _
  · exact acts_refl _ at_ s
  · rcases logDdl_of_healthy h (s.ddlRecord at_ ddl) with ⟨e, -, hlog⟩ | ⟨payload, hp, hlog⟩
    · simp only [hlog]
      exact acts_refl _ at_ s
    · simp only [hlog]
      exact ⟨le_rfl, .inr ⟨payload, heffect (resolve_of_checkGrant hc), hp, rfl⟩⟩

/-- Every DDL statement acts at its own reading of the clock. -/
theorem acts_applyDdl (h : s.catalogLog.Healthy) (ddl : DdlStatement) :
    (s.applyDdl ddl).1 = s ∨ Acts ddl s.clock.now.2 s.tick (s.applyDdl ddl).1 := by
  unfold applyDdl
  split
  · exact .inl rfl
  have h : s.tick.catalogLog.Healthy := h
  right
  cases ddl with
  | createTable name columns validTime => exact acts_applyCreateTable h ..
  | dropTable name ifExists => exact acts_applyDropTable h ..
  | createIndex name table kind columns built => exact acts_applyCreateIndex h ..
  | dropIndex name ifExists => exact acts_applyDropIndex h ..
  | createUser name verifier superuser => exact acts_applyUserDdl h _
  | alterUserPassword name verifier => exact acts_applyUserDdl h _
  | dropUser name ifExists => exact acts_applyUserDdl h _
  | grant table grantee privileges =>
    refine acts_applyGrantDdl h (.grant table grantee privileges) table grantee fun hr => ?_
    exact @Effect.grant s.clock.now.2 s.tick.catalogState table grantee privileges hr
  | revoke table grantee privileges =>
    refine acts_applyGrantDdl h (.revoke table grantee privileges) table grantee fun hr => ?_
    exact @Effect.revoke s.clock.now.2 s.tick.catalogState table grantee privileges hr

end SessionEngine

/-! ### The fold keeps up -/

/-- `r`, read from the log, is as `c`, the running session's, but for the policy of names that are
not live, which `r` has forgotten. -/
structure Tracks (mark : SystemTimeMicros) (c r : CatalogState) : Prop where
  catalog : r.catalog = c.catalog
  users : r.users = c.users
  live : ∀ t, c.Live t → r.access.policy t = c.access.policy t
  forgotten : ∀ t, ¬ c.Live t → r.access.policy t = (none, ∅)
  known : ∀ t, c.catalog.versions t = [] → c.access.policy t = (none, ∅)
  ordered : c.catalog.Ordered mark

namespace Tracks

variable {mark at_ : SystemTimeMicros} {c c' : CatalogState}

theorem opened (mark : SystemTimeMicros) : Tracks mark ⟨{}, ∅, {}⟩ ⟨{}, ∅, {}⟩ where
  catalog := rfl
  users := rfl
  live t h := rfl
  forgotten t h := by simp [AccessControl.policy, AccessControl.grantsOn]
  known t h := by simp [AccessControl.policy, AccessControl.grantsOn]
  ordered := .empty mark

theorem mono {r : CatalogState} (h : Tracks mark c r) (hle : mark ≤ at_) : Tracks at_ c r :=
  { h with ordered := h.ordered.mono hle }

/-- The replay arm of a logged statement keeps up with the live one. -/
theorem effect {r : ReplayedCatalog} {record : CatalogRecord} (h : Tracks mark c r.catalogState)
    (hle : mark ≤ at_) (he : Effect at_ c record c') :
    ∃ r', r.fold record = .ok r' ∧ Tracks at_ c' r'.catalogState := by
  have hcat : r.catalog = c.catalog := h.catalog
  have husers : r.users = c.users := h.users
  have hm := h.mono hle
  cases he with
  | @createTable ns name owner columns validTime catalog id hc =>
    refine ⟨_, by simp only [ReplayedCatalog.fold, hcat, hc]; rfl, ?_⟩
    have hlive := fun t => Catalog.isSome_openVersion_createTable (t := t) hc
    have hversions := fun t => Catalog.versions_createTable (t := t) hc
    -- the created name starts afresh on both sides, the others keep what they agreed on
    have hpolicy : ∀ t, c.Live t ∨ name = t →
        (r.access.own name owner).policy t = (c.access.own name owner).policy t := fun t ht => by
      rw [AccessControl.policy_own, AccessControl.policy_own]
      split_ifs with hn
      · rfl
      · exact h.live t (ht.resolve_right hn)
    refine ⟨rfl, husers, fun t ht => hpolicy t ?_, fun t ht => ?_, fun t ht => ?_,
      h.ordered.createTable hle hc⟩
    · rw [CatalogState.Live, hlive t, Bool.or_eq_true, decide_eq_true_iff] at ht
      exact ht.symm
    · rw [CatalogState.Live, hlive t, Bool.or_eq_true, decide_eq_true_iff, not_or] at ht
      change (r.access.own name owner).policy t = _
      rw [AccessControl.policy_own, if_neg ht.1]
      exact h.forgotten t ht.2
    · rw [hversions t] at ht
      split_ifs at ht with hn
      · simp at ht
      · change (c.access.own name owner).policy t = _
        rw [AccessControl.policy_own, if_neg hn]
        exact h.known t ht
  | @dropTable name catalog id hc =>
    refine ⟨_, by simp only [ReplayedCatalog.fold, hcat, hc]; rfl, ?_⟩
    -- only the replay forgets the policy of the name
    obtain ⟨current, hcur, -⟩ := Catalog.dropTable_ok hc
    have hlive := fun t => Catalog.isSome_openVersion_dropTable (t := t) hc
    have hversions := fun t => Catalog.versions_dropTable (t := t) hcur hc
    refine ⟨rfl, husers, fun t ht => ?_, fun t ht => ?_, fun t ht => ?_,
      h.ordered.dropTable hle hc⟩
    · rw [CatalogState.Live, hlive t, Bool.and_eq_true, decide_eq_true_iff] at ht
      change (r.access.forgetTable name).policy t = _
      rw [AccessControl.policy_forgetTable, if_neg ht.1]
      exact h.live t ht.2
    · change (r.access.forgetTable name).policy t = _
      rw [AccessControl.policy_forgetTable]
      split_ifs with hn
      · rfl
      · rw [CatalogState.Live, hlive t, Bool.and_eq_true, decide_eq_true_iff] at ht
        exact h.forgotten t fun hl => ht ⟨hn, hl⟩
    · rw [hversions t] at ht
      split_ifs at ht with hn
      · simp at ht
      · exact h.known t ht
  | @createIndex name table kind columns def_ catalog hdef hc =>
    refine ⟨_, by simp only [ReplayedCatalog.fold, hcat, hdef, hc]; rfl, ?_⟩
    obtain ⟨indexes, rfl⟩ := Catalog.createIndex_ok hc
    exact ⟨rfl, husers, h.live, h.forgotten, h.known, hm.ordered.withIndexes indexes⟩
  | @dropIndex name catalog hc =>
    refine ⟨_, by simp only [ReplayedCatalog.fold, hcat, hc]; rfl, ?_⟩
    obtain ⟨indexes, rfl⟩ := Catalog.dropIndex_ok hc
    exact ⟨rfl, husers, h.live, h.forgotten, h.known, hm.ordered.withIndexes indexes⟩
  | createUser hnew =>
    refine ⟨_, rfl, ⟨hcat, ?_, h.live, h.forgotten, h.known, hm.ordered⟩⟩
    simp only [ReplayedCatalog.catalogState, husers]
  | alterUser =>
    refine ⟨_, rfl, ⟨hcat, ?_, h.live, h.forgotten, h.known, hm.ordered⟩⟩
    simp only [ReplayedCatalog.catalogState, husers]
  | @dropUser name =>
    refine ⟨_, rfl, ⟨hcat, ?_, fun t ht => ?_, fun t ht => ?_, fun t ht => ?_, hm.ordered⟩⟩
    · simp only [ReplayedCatalog.catalogState, husers]
    · exact AccessControl.policy_forgetRole_congr (h.live t ht)
    · exact AccessControl.policy_forgetRole_of_none (h.forgotten t ht)
    · exact AccessControl.policy_forgetRole_of_none (h.known t ht)
  | @grant table grantee privileges hr =>
    -- a grant is accepted only on a live name, so no forgotten policy gains anything
    have hopen : c.Live table := hm.ordered.open_of_resolve hr
    refine ⟨_, rfl, ⟨hcat, husers, fun t ht => ?_, fun t ht => ?_, fun t ht => ?_, hm.ordered⟩⟩
    · exact AccessControl.policy_grant_congr (h.live t ht)
    · have hne : table ≠ t := fun heq => ht (heq ▸ hopen)
      exact (AccessControl.policy_grant_of_ne hne).trans (h.forgotten t ht)
    · have hne : table ≠ t := fun heq => Catalog.versions_ne_nil hopen (heq ▸ ht)
      exact (AccessControl.policy_grant_of_ne hne).trans (h.known t ht)
  | @revoke table grantee privileges hr =>
    have hopen : c.Live table := hm.ordered.open_of_resolve hr
    refine ⟨_, rfl, ⟨hcat, husers, fun t ht => ?_, fun t ht => ?_, fun t ht => ?_, hm.ordered⟩⟩
    · exact AccessControl.policy_revoke_congr (h.live t ht)
    · have hne : table ≠ t := fun heq => ht (heq ▸ hopen)
      exact (AccessControl.policy_revoke_of_ne hne).trans (h.forgotten t ht)
    · have hne : table ≠ t := fun heq => Catalog.versions_ne_nil hopen (heq ▸ ht)
      exact (AccessControl.policy_revoke_of_ne hne).trans (h.known t ht)

end Tracks

/-! ### Deciding alike -/

/-- The decision on a role's use of a privilege on a table, for a statement that reads at
`snapshot`: the name is resolved there, then the policy is asked. -/
def SessionEngine.authorizeAt (s : SessionEngine) (role table : Name) (privilege : Privilege)
    (snapshot : SystemTimeMicros) : Except SessionError Unit :=
  if (s.catalog.resolve table snapshot).isNone then .error (.unknownTable table)
  else { s with writePrincipal := role }.authorizeTable table privilege

/-- The session that a restart builds from what the log says. -/
def ReplayedCatalog.session (r : ReplayedCatalog) (s : SessionEngine) : SessionEngine :=
  { clock := s.clock, catalog := r.catalog, users := r.users, access := r.access }

/-- Folding the catalog log gives the session's schemas, its roles and its decisions. -/
def SessionEngine.Replays (s : SessionEngine) : Prop :=
  ∃ r, ReplayedCatalog.replay s.catalogLog.frames = .ok r ∧
    r.users = s.users ∧
    (∀ name snapshot, r.catalog.resolve name snapshot = s.catalog.resolve name snapshot) ∧
    ∀ role table privilege snapshot,
      (r.session s).authorizeAt role table privilege snapshot =
        s.authorizeAt role table privilege snapshot

namespace CatalogState

variable {c c' : CatalogState} {role t : Name} {privilege : Privilege}

/-- Only superusers are let through on the table. -/
def Unprivileged (c : CatalogState) (table : Name) : Prop :=
  ∀ role privilege, c.passes role table privilege → c.superuser role

/-- Of names that are not live the policy remembers nothing that lets a role through. -/
def Unburdened (c : CatalogState) : Prop := ∀ t, ¬ c.Live t → c.Unprivileged t

theorem passes_iff :
    c.passes role t privilege ↔ c.superuser role ∨ (c.access.policy t).1 = some role ∨
      (.role role, privilege) ∈ (c.access.policy t).2 ∨
      (.everyone, privilege) ∈ (c.access.policy t).2 := by
  simp [passes, AccessControl.policy, AccessControl.mem_grantsOn, AccessControl.holds, or_assoc]

/-- The decision on a table depends on the roles and on the policy of that table. -/
theorem passes_congr (hs : c'.superuser role = c.superuser role)
    (hp : c'.access.policy t = c.access.policy t) :
    c'.passes role t privilege = c.passes role t privilege := by
  rw [Bool.eq_iff_iff, passes_iff, passes_iff, hs, hp]

theorem passes_of_none (h : c.access.policy t = (none, ∅)) :
    c.passes role t privilege = c.superuser role := by
  rw [Bool.eq_iff_iff, passes_iff, h]
  simp

end CatalogState

theorem SessionEngine.authorizeAt_eq (s : SessionEngine) (role table : Name)
    (privilege : Privilege) (snapshot : SystemTimeMicros) :
    s.authorizeAt role table privilege snapshot =
      if (s.catalog.resolve table snapshot).isNone then .error (.unknownTable table)
      else if s.catalogState.passes role table privilege then .ok ()
      else .error (.permissionDenied role privilege.keyword (some table)) := by
  unfold authorizeAt
  refine if_congr Iff.rfl rfl ?_
  unfold authorizeTable CatalogState.passes
  simp only [Bool.or_eq_true, decide_eq_true_iff, or_assoc, ite_or]
  rfl

/-- A session and its replay decide alike just if no policy of a name that is not live would let a
role through. -/
theorem Tracks.replays_iff {mark : SystemTimeMicros} {s : SessionEngine} {r : ReplayedCatalog}
    (h : Tracks mark s.catalogState r.catalogState)
    (hr : ReplayedCatalog.replay s.catalogLog.frames = .ok r) :
    s.Replays ↔ s.catalogState.Unburdened := by
  have hcat : r.catalog = s.catalog := h.catalog
  have hsuper : ∀ role, r.catalogState.superuser role = s.catalogState.superuser role :=
    fun role => by rw [CatalogState.superuser, CatalogState.superuser, h.users]
  constructor
  · rintro ⟨r', hr', -, -, hdecide⟩ t hlive role privilege hpass
    cases hr.symm.trans hr'
    by_contra hno
    -- the name has had an era, at an instant of which the two decisions differ
    have hversions : s.catalog.versions t ≠ [] := fun hnil => by
      rw [CatalogState.passes_of_none (h.known t hnil)] at hpass
      exact hno hpass
    obtain ⟨snapshot, hresolve⟩ : ∃ snapshot, (s.catalog.resolve t snapshot).isSome :=
      h.ordered.exists_resolve hversions
    have hreplayed : r.catalogState.passes role t privilege = false := by
      rw [CatalogState.passes_of_none (h.forgotten t hlive), hsuper]
      exact Bool.eq_false_iff.2 hno
    have hresolve : (s.catalog.resolve t snapshot).isNone = false := by
      simpa [Option.isSome_iff_ne_none] using hresolve
    have hresolve' : ((r.session s).catalog.resolve t snapshot).isNone = false := by
      rw [show (r.session s).catalog = s.catalog from hcat]
      exact hresolve
    have hpass' : (r.session s).catalogState.passes role t privilege = false := hreplayed
    have heq := hdecide role t privilege snapshot
    rw [SessionEngine.authorizeAt_eq, SessionEngine.authorizeAt_eq, hresolve, hresolve', hpass,
      hpass'] at heq
    cases heq
  · intro hun
    refine ⟨r, hr, h.users, fun name snapshot => by rw [hcat], fun role t privilege snapshot => ?_⟩
    have hpass : (r.session s).catalogState.passes role t privilege =
        s.catalogState.passes role t privilege := by
      change r.catalogState.passes role t privilege = _
      by_cases hlive : s.catalogState.Live t
      · exact CatalogState.passes_congr (hsuper role) (h.live t hlive)
      · rw [CatalogState.passes_of_none (h.forgotten t hlive), hsuper, Bool.eq_iff_iff]
        exact ⟨fun hs => CatalogState.passes_iff.2 (.inl hs), hun t hlive role privilege⟩
    rw [SessionEngine.authorizeAt_eq, SessionEngine.authorizeAt_eq, hpass]
    rw [show (r.session s).catalog = s.catalog from hcat]

/-! ### Runs -/

/-- What happens to a session between two DDL statements: anything that leaves schemas, roles,
policy and their log alone. -/
structure Elsewhere (s s' : SessionEngine) : Prop where
  state : s'.catalogState = s.catalogState
  log : s'.catalogLog = s.catalogLog
  clock : s.clock.highWater ≤ s'.clock.highWater

/-- A run over an empty disk, with the statements served and the sessions they were put to. -/
inductive DdlRun (inner : ℕ → SystemTimeMicros) :
    List (SessionEngine × SessionEngine.DdlStatement) → SessionEngine → Prop
  | opened : DdlRun inner [] (.opened inner)
  | statement {steps : List (SessionEngine × SessionEngine.DdlStatement)} {s s' : SessionEngine}
      (h : DdlRun inner steps s) (he : Elsewhere s s') (ddl : SessionEngine.DdlStatement) :
      DdlRun inner (steps ++ [(s', ddl)]) (s'.applyDdl ddl).1

/-- The log of a session is whole, and its fold keeps up with the session. -/
structure Tracked (s : SessionEngine) : Prop where
  healthy : s.catalogLog.Healthy
  tracks : ∃ r, ReplayedCatalog.replay s.catalogLog.frames = .ok r ∧
    Tracks s.clock.highWater s.catalogState r.catalogState

/-- The record of a statement, if it can be framed, is one that a restart reads back: its payload is
no larger than a reader accepts, its fields are as their types promise, and it neither grants to nor
revokes from a role with the empty name, which the log takes for `PUBLIC`. -/
def SessionEngine.Rereads (s : SessionEngine) (ddl : SessionEngine.DdlStatement) : Prop :=
  (s.ddlRecord s.clock.now.2 ddl).WellTyped ∧
    ∀ payload ∈ (s.ddlRecord s.clock.now.2 ddl).encodePayload.toOption,
      payload.length ≤ CatalogLog.maxRecordPayload

theorem CatalogRecord.encodePayload_of_framed {r : CatalogRecord} {payload : Bytes}
    (h : r.framedPayload = .ok payload) : r.encodePayload = .ok payload := by
  obtain ⟨p, hp, h⟩ := exists_of_bind_ok h
  split_ifs at h
  cases h
  exact hp

theorem SessionEngine.Rereads.readPayload {s : SessionEngine} {ddl : SessionEngine.DdlStatement}
    (h : s.Rereads ddl) {payload : Bytes}
    (hp : (s.ddlRecord s.clock.now.2 ddl).framedPayload = .ok payload) :
    CatalogRecord.readPayload payload = .ok (s.ddlRecord s.clock.now.2 ddl) := by
  obtain ⟨hty, hlen⟩ := h
  have henc := CatalogRecord.encodePayload_of_framed hp
  rw [CatalogRecord.readPayload, if_neg (not_lt.2 (hlen payload (by rw [henc]; rfl)))]
  exact CatalogRecord.decodePayload_encodePayload henc hty

theorem ReplayedCatalog.foldAll_concat {r r' r'' : ReplayedCatalog} {records : List CatalogRecord}
    {record : CatalogRecord} (h : r.foldAll records = .ok r') (hf : r'.fold record = .ok r'') :
    r.foldAll (records ++ [record]) = .ok r'' := by
  induction records generalizing r with
  | nil =>
    cases h
    simp only [List.nil_append, foldAll, hf]
  | cons rec records ih =>
    rw [foldAll] at h
    rw [List.cons_append, foldAll]
    split at h
    · cases h
    · exact ih h

/-- One more payload. -/
theorem ReplayedCatalog.replay_concat {frames frames' : List (Option Bytes)} {payload : Bytes}
    (hframes : AppendLog.replay frames' = AppendLog.replay frames ++ [payload])
    {r r' : ReplayedCatalog} {record : CatalogRecord} (h : replay frames = .ok r)
    (hread : CatalogRecord.readPayload payload = .ok record) (hf : r.fold record = .ok r') :
    replay frames' = .ok r' := by
  unfold replay at h ⊢
  rcases hall : (AppendLog.replay frames).mapM CatalogRecord.readPayload with e | records
  · simp only [hall] at h
    cases h
  · simp only [hall] at h
    have hall' : (AppendLog.replay frames').mapM CatalogRecord.readPayload =
        .ok (records ++ [record]) := by
      rw [hframes, mapM_eq_ok_iff_forall₂]
      exact List.rel_append (mapM_eq_ok_iff_forall₂.1 hall) (.cons hread .nil)
    simp only [hall']
    exact foldAll_concat h hf

namespace Tracked

variable {s s' : SessionEngine}

theorem opened (inner : ℕ → SystemTimeMicros) : Tracked (.opened inner) where
  healthy := ⟨by simp [SessionEngine.opened, Faults.Clean],
    by simp [SessionEngine.opened, Faults.Clean], by simp [SessionEngine.opened]⟩
  tracks := ⟨{}, rfl, .opened _⟩

theorem elsewhere (h : Tracked s) (he : Elsewhere s s') : Tracked s' where
  healthy := he.log ▸ h.healthy
  tracks := by
    obtain ⟨r, hr, ht⟩ := h.tracks
    refine ⟨r, he.log ▸ hr, ?_⟩
    rw [he.state]
    exact ht.mono he.clock

theorem applyDdl (h : Tracked s) {ddl : SessionEngine.DdlStatement} (hreads : s.Rereads ddl) :
    Tracked (s.applyDdl ddl).1 := by
  rcases SessionEngine.acts_applyDdl h.healthy ddl with heq | hacts
  · rwa [heq]
  obtain ⟨r, hr, ht⟩ := h.tracks
  rcases hacts.acts with ⟨hstate, hlog⟩ | ⟨payload, heffect, hpayload, hlog⟩
  · exact h.elsewhere ⟨hstate, hlog, s.clock.le_now.trans hacts.clock⟩
  · obtain ⟨r', hfold, ht'⟩ := ht.effect s.clock.le_now heffect
    obtain ⟨-, hhealthy, hreplay⟩ := h.healthy.append payload
    have hlog : (s.applyDdl ddl).1.catalogLog = (s.catalogLog.append payload).1 := hlog
    refine ⟨hlog ▸ hhealthy, r', ?_, ht'.mono hacts.clock⟩
    rw [hlog]
    exact ReplayedCatalog.replay_concat hreplay hr (hreads.readPayload hpayload) hfold

end Tracked

/-! ### Where they part -/

namespace CatalogState

variable {c c' : CatalogState} {at_ : SystemTimeMicros} {record : CatalogRecord}

/-- Some role is not a superuser: names do not run out. -/
theorem exists_not_superuser (c : CatalogState) : ∃ role, c.superuser role = false := by
  obtain ⟨role, hrole⟩ := Infinite.exists_notMem_finset
    (insert wirePrincipal (c.users.toList.map Prod.fst).toFinset)
  rw [Finset.mem_insert, not_or, List.mem_toFinset] at hrole
  have hnone : c.users[role]? = none := by
    rw [Option.eq_none_iff_forall_ne_some]
    intro v hv
    exact hrole.2 (List.mem_map_of_mem (OrdMap.mem_toList.2 hv))
  exact ⟨role, by simp [superuser, hrole.1, hnone]⟩

theorem Unprivileged.congr {t : Name} (h : c.Unprivileged t)
    (hs : ∀ role, c'.superuser role = c.superuser role)
    (hp : c'.access.policy t = c.access.policy t) : c'.Unprivileged t := by
  intro role privilege hpass
  rw [passes_congr (hs role) hp] at hpass
  rw [hs role]
  exact h role privilege hpass

/-- A statement that drops neither a table nor a role leaves no policy behind. -/
theorem Unburdened.effect (h : c.Unburdened)
    (hlive : ∀ t, (c.catalog.resolve t at_).isSome → c.Live t)
    (he : Effect at_ c record c') (hd : ¬ record.Drops) : c'.Unburdened := by
  cases he with
  | @createTable ns name owner columns validTime catalog id hc =>
    intro t ht
    rw [Live, Catalog.isSome_openVersion_createTable hc, Bool.or_eq_true, decide_eq_true_iff,
      not_or] at ht
    refine (h t ht.2).congr (fun role => rfl) ?_
    rw [AccessControl.policy_own, if_neg ht.1]
  | dropTable => exact absurd trivial hd
  | createIndex hdef hc =>
    obtain ⟨indexes, rfl⟩ := Catalog.createIndex_ok hc
    exact h
  | dropIndex hc =>
    obtain ⟨indexes, rfl⟩ := Catalog.dropIndex_ok hc
    exact h
  | @createUser name verifier superuser hnew =>
    intro t ht role privilege hpass
    rcases passes_iff.1 hpass with hs | hp
    · exact hs
    have hs : c.superuser role := h t ht role privilege (passes_iff.2 (.inr hp))
    rw [CatalogState.superuser, Bool.or_eq_true] at hs ⊢
    refine hs.imp_right fun hany => ?_
    have hne : name ≠ role := fun heq => by
      rw [← heq, Std.ExtTreeMap.getElem?_eq_none_of_contains_eq_false hnew] at hany
      cases hany
    rw [OrdMap.getElem?_insert, if_neg hne]
    exact hany
  | @alterUser name verifier =>
    intro t ht
    refine (h t ht).congr (fun role => ?_) rfl
    rw [CatalogState.superuser, CatalogState.superuser, OrdMap.getElem?_insert]
    split_ifs with heq
    · rw [heq]
      rfl
    · rfl
  | dropUser => exact absurd trivial hd
  | @grant table grantee privileges hr =>
    intro t ht
    have hne : table ≠ t := fun heq => ht (heq ▸ hlive table hr)
    exact (h t ht).congr (fun role => rfl) (AccessControl.policy_grant_of_ne hne)
  | @revoke table grantee privileges hr =>
    intro t ht
    have hne : table ≠ t := fun heq => ht (heq ▸ hlive table hr)
    exact (h t ht).congr (fun role => rfl) (AccessControl.policy_revoke_of_ne hne)

/-- Dropping a table leaves no policy behind just if only superusers were let through on it. -/
theorem Unburdened.dropTable_iff (h : c.Unburdened) {name : Name} {catalog : Catalog}
    {id : SchemaId}
    (hc : c.catalog.dropTable name at_ = .ok (catalog, id)) :
    Unburdened ⟨catalog, c.users, c.access⟩ ↔ c.Unprivileged name := by
  have hlive : ∀ t, Live ⟨catalog, c.users, c.access⟩ t ↔ name ≠ t ∧ c.Live t := fun t => by
    rw [Live, Catalog.isSome_openVersion_dropTable hc, Bool.and_eq_true, decide_eq_true_iff]
    rfl
  constructor
  · intro hun
    exact hun name fun hl => ((hlive name).1 hl).1 rfl
  · intro hname t ht
    by_cases heq : name = t
    · exact heq ▸ hname
    · exact h t fun hl => ht ((hlive t).2 ⟨heq, hl⟩)

/-- Dropping a role leaves no policy behind just if it was not a superuser or owned no name that is
not live. -/
theorem Unburdened.dropUser_iff (h : c.Unburdened) {name : Name} (hname : name ≠ wirePrincipal) :
    Unburdened ⟨c.catalog, c.users.erase name, c.access.forgetRole name⟩ ↔
      (c.users[name]?.any Role.superuser → ∀ t, c.access.owners[t]? = some name → c.Live t) := by
  have hsuper : ∀ role,
      superuser ⟨c.catalog, c.users.erase name, c.access.forgetRole name⟩ role =
        if name = role then false else c.superuser role := fun role => by
    rw [superuser, superuser, OrdMap.getElem?_erase]
    split_ifs with heq
    · subst heq
      simp [hname]
    · rfl
  constructor
  · intro hun hs t howner
    by_contra hlive
    have hpass := hun t hlive name .select (passes_iff.2 (.inr (.inl howner)))
    rw [hsuper, if_pos rfl] at hpass
    cases hpass
  · intro hcond t ht role privilege hpass
    rcases passes_iff.1 hpass with hs | howner | hgrant | hgrant
    · exact hs
    · have howner : c.access.owners[t]? = some role := howner
      have hs : c.superuser role := h t ht role privilege (passes_iff.2 (.inr (.inl howner)))
      rw [hsuper]
      split_ifs with heq
      · subst heq
        rw [superuser, Bool.or_eq_true, decide_eq_true_iff] at hs
        exact absurd (hcond (hs.resolve_left hname) t howner) ht
      · exact hs
    · rw [AccessControl.policy, AccessControl.mem_grantsOn, AccessControl.forgetRole,
        Finset.mem_filter] at hgrant
      have hs : c.superuser role := h t ht role privilege
        (passes_iff.2 (.inr (.inr (.inl (AccessControl.mem_grantsOn.2 hgrant.1)))))
      rw [hsuper, if_neg fun heq => by simp [heq] at hgrant]
      exact hs
    · -- a grant to everyone is one to some role that is no superuser
      rw [AccessControl.policy, AccessControl.mem_grantsOn, AccessControl.forgetRole,
        Finset.mem_filter] at hgrant
      obtain ⟨other, hother⟩ := c.exists_not_superuser
      have hs : c.superuser other := h t ht other privilege
        (passes_iff.2 (.inr (.inr (.inr (AccessControl.mem_grantsOn.2 hgrant.1)))))
      rw [hother] at hs
      cases hs

end CatalogState

namespace SessionEngine

variable {s : SessionEngine}

/-- A statement that takes effect forgets, live and replayed, what lets roles through in the same
way: a table is dropped only if none but superusers were let through on it, and a superuser role
only if it owns no name that is not live.  A name that is too long for the log is not dropped. -/
def ForgetsAlike (s : SessionEngine) : DdlStatement → Prop
  | .dropTable name ifExists =>
    s.authorizeDdl (.dropTable name ifExists) = .ok () → name.length < 2 ^ 16 →
      (s.catalog.dropTable name s.clock.now.2).isOk → s.catalogState.Unprivileged name
  | .dropUser name ifExists =>
    s.authorizeDdl (.dropUser name ifExists) = .ok () → name.length < 2 ^ 16 →
      name ≠ wirePrincipal →
      s.users[name]?.any Role.superuser →
        ∀ t, s.access.owners[t]? = some name → s.catalogState.Live t
  | _ => True

/-- A record of an instant and a name is logged if the name fits its field. -/
theorem logDdl_named (h : s.catalogLog.Healthy) (record : CatalogRecord) {kind : Fin 256}
    {at_ : SystemTimeMicros} {name : Name}
    (hrecord : record.encodePayload = (do
      let bytes ← putStr name
      pure ([kind] ++ (putI64 at_ ++ bytes)))) :
    (name.length < 2 ^ 16 ∧ ∃ payload, s.logDdl record =
        ({ s with catalogLog := (s.catalogLog.append payload).1 }, .ok ())) ∨
      (2 ^ 16 ≤ name.length ∧ s.logDdl record = (s, .error .catalogLog)) := by
  rcases lt_or_ge name.length (2 ^ 16) with hfits | hlong
  · have hframed : record.framedPayload =
        .ok ([kind] ++ (putI64 at_ ++ (leBytes 2 name.length ++ name))) := by
      rw [CatalogRecord.framedPayload, hrecord, putStr, if_neg (not_le.2 hfits)]
      refine if_neg ?_
      simp [putI64]
      omega
    rcases logDdl_of_healthy h record with ⟨e, he, -⟩ | ⟨payload, -, hlog⟩
    · rw [hframed] at he
      cases he
    · exact .inl ⟨hfits, payload, hlog⟩
  · have hframed : record.framedPayload = .error (.identifierTooLong name.length) := by
      rw [CatalogRecord.framedPayload, hrecord, putStr, if_pos hlong]
      rfl
    rcases logDdl_of_healthy h record with ⟨e, -, hlog⟩ | ⟨payload, hp, -⟩
    · exact .inr ⟨hlong, hlog⟩
    · rw [hframed] at hp
      cases hp

theorem catalogState_applyDropTable (h : s.catalogLog.Healthy) (at_ : SystemTimeMicros)
    (name : Name) (ifExists : Bool) :
    (s.applyDropTable at_ name ifExists).1.catalogState =
      match s.catalog.dropTable name at_ with
      | .ok (catalog, _) =>
        if name.length < 2 ^ 16 then ⟨catalog, s.users, s.access⟩ else s.catalogState
      | .error _ => s.catalogState := by
  have hlogs := logDdl_named h (.dropTable at_ name) rfl
  rcases s.applyDropTable_cases at_ name ifExists with ⟨r, hr, e, hc⟩ |
    ⟨catalog, id, s₁, hc, ⟨e, hl, hr⟩ | ⟨hl, ⟨-, hr⟩ | ⟨st, e, clock, -, -, -, -, r, hr⟩⟩⟩
  · rw [hr, hc]
  all_goals
    rw [hr, hc]
    rcases hlogs with ⟨hfits, payload, hlog⟩ | ⟨hlong, hlog⟩
    all_goals
      rw [hlog] at hl
      cases hl
  · exact (if_neg (not_lt.2 hlong)).symm
  all_goals exact (if_pos hfits).symm

theorem catalogState_applyDropUser (h : s.catalogLog.Healthy) (at_ : SystemTimeMicros)
    (name : Name) (ifExists : Bool) :
    (s.applyUserDdl at_ (.dropUser name ifExists)).1.catalogState =
      if name = wirePrincipal ∨ s.users.contains name = false ∨ 2 ^ 16 ≤ name.length then
        s.catalogState
      else ⟨s.catalog, s.users.erase name, s.access.forgetRole name⟩ := by
  have hlogs := logDdl_named h (.dropUser at_ name) rfl
  simp only [applyUserDdl]
  by_cases hwire : name = wirePrincipal
  · simp only [hwire, true_or, if_true]
  rcases hc : s.users.contains name with _ | _
  · simp [hwire]
  rcases hlogs with ⟨hfits, payload, hlog⟩ | ⟨hlong, hlog⟩
  · simp only [hwire, hlog, not_le.2 hfits, if_false]
    rfl
  · simp only [hwire, hlog, hlong, or_true, if_true, if_false]
    rfl

/-- One statement: it leaves no policy behind just if it forgets alike. -/
theorem unburdened_applyDdl_iff (h : Tracked s) (hun : s.catalogState.Unburdened)
    (ddl : DdlStatement) :
    (s.applyDdl ddl).1.catalogState.Unburdened ↔ s.ForgetsAlike ddl := by
  have hlog : s.tick.catalogLog.Healthy := h.healthy
  rcases hauth : s.authorizeDdl ddl with e | _
  · have heq : (s.applyDdl ddl).1 = s := by simp only [applyDdl, hauth]
    rw [heq]
    refine iff_of_true hun ?_
    cases ddl <;> first | exact trivial | (intro hok; rw [hauth] at hok; cases hok)
  by_cases hdrop : ¬(s.ddlRecord s.clock.now.2 ddl).Drops
  · have hforgets : s.ForgetsAlike ddl := by
      cases ddl <;> first | exact trivial | exact absurd trivial hdrop
    refine iff_of_true ?_ hforgets
    rcases acts_applyDdl h.healthy ddl with heq | hacts
    · rwa [heq]
    rcases hacts.acts with ⟨hstate, -⟩ | ⟨payload, heffect, -⟩
    · rw [hstate]
      exact hun
    · obtain ⟨r, -, ht⟩ := h.tracks
      have hlive : ∀ t, (s.catalog.resolve t s.clock.now.2).isSome → s.catalogState.Live t :=
        fun t hr => (ht.mono s.clock.le_now).ordered.open_of_resolve hr
      exact CatalogState.Unburdened.effect hun hlive heffect hdrop
  cases ddl with
  | dropTable name ifExists =>
    have hstate := catalogState_applyDropTable hlog s.clock.now.2 name ifExists
    simp only [applyDdl, hauth, ForgetsAlike, hstate, true_imp_iff]
    rcases hc : s.catalog.dropTable name s.clock.now.2 with e | ⟨catalog, id⟩
    · have hc : s.tick.catalog.dropTable name s.clock.now.2 = .error e := hc
      rw [hc]
      exact iff_of_true hun fun _ hok => nomatch hok
    · have hc' : s.tick.catalog.dropTable name s.clock.now.2 = .ok (catalog, id) := hc
      rw [hc']
      dsimp only
      split_ifs with hfits
      · exact (hun.dropTable_iff hc).trans ⟨fun hu _ _ => hu, fun hu => hu hfits rfl⟩
      · exact iff_of_true hun fun hlt => absurd hlt hfits
  | dropUser name ifExists =>
    have hstate := catalogState_applyDropUser hlog s.clock.now.2 name ifExists
    simp only [applyDdl, hauth, ForgetsAlike, hstate, true_imp_iff]
    split_ifs with hskip
    · refine iff_of_true hun fun hfits hne hs => ?_
      have hs : s.tick.users[name]?.any Role.superuser := hs
      have hnone := (hskip.resolve_left hne).resolve_right (not_le.2 hfits)
      rw [Std.ExtTreeMap.getElem?_eq_none_of_contains_eq_false hnone] at hs
      cases hs
    · rw [not_or, not_or, not_le] at hskip
      exact (hun.dropUser_iff hskip.1).trans ⟨fun hu _ _ => hu, fun hu => hu hskip.2.2 hskip.1⟩
  | _ => exact absurd not_false hdrop

end SessionEngine

/-- Over every run of DDL statements by any roles, folding the catalog log gives the running
session's roles, schemas and decisions after every statement, just if every statement forgets
alike; provided that what is logged is read back. -/
theorem replays_iff_forgetsAlike {inner : ℕ → SystemTimeMicros}
    {steps : List (SessionEngine × SessionEngine.DdlStatement)} {s : SessionEngine}
    (h : DdlRun inner steps s) (hreads : ∀ p ∈ steps, p.1.Rereads p.2) :
    (∀ p ∈ steps, (p.1.applyDdl p.2).1.Replays) ↔ ∀ p ∈ steps, p.1.ForgetsAlike p.2 := by
  suffices hrun : Tracked s ∧
      ((∀ p ∈ steps, (p.1.applyDdl p.2).1.Replays) ↔ ∀ p ∈ steps, p.1.ForgetsAlike p.2) ∧
      ((∀ p ∈ steps, p.1.ForgetsAlike p.2) → s.catalogState.Unburdened) from hrun.2.1
  induction h with
  | opened =>
    refine ⟨.opened inner, by simp, fun _ t ht role privilege hpass => ?_⟩
    rwa [CatalogState.passes_of_none (by
      simp [SessionEngine.catalogState, SessionEngine.opened, AccessControl.policy,
        AccessControl.grantsOn])] at hpass
  | @statement steps s s' h he ddl ih =>
    rw [List.forall_mem_append, List.forall_mem_singleton] at hreads
    obtain ⟨htracked, hiff, hun⟩ := ih hreads.1
    have hs' := htracked.elsewhere he
    have hafter := hs'.applyDdl hreads.2
    have hreplays : (s'.applyDdl ddl).1.Replays ↔ (s'.applyDdl ddl).1.catalogState.Unburdened := by
      obtain ⟨r, hr, ht⟩ := hafter.tracks
      exact ht.replays_iff hr
    have hlast : (∀ p ∈ steps, p.1.ForgetsAlike p.2) →
        ((s'.applyDdl ddl).1.catalogState.Unburdened ↔ s'.ForgetsAlike ddl) := fun hall =>
      SessionEngine.unburdened_applyDdl_iff hs' (he.state ▸ hun hall) ddl
    simp only [List.forall_mem_append, List.forall_mem_singleton]
    refine ⟨hafter, ?_, fun hall => (hlast hall.1).2 hall.2⟩
    rw [hiff, hreplays]
    exact and_congr_right hlast

/-! ### A policy that a restart loses -/

/-- `CREATE USER a`. -/
def createUserA : SessionEngine.DdlStatement :=
  .createUser [97] ⟨4096, [], fun _ => 0, fun _ => 0⟩ false

/-- The role `a` connects. -/
def connectedA : SessionEngine :=
  { ((SessionEngine.opened fun _ => 0).applyDdl createUserA).1 with writePrincipal := [97] }

/-- `CREATE TABLE t`. -/
def createTableT : SessionEngine.DdlStatement :=
  .createTable [116] [⟨[107], .text, by decide⟩] none

/-- The role `a` has created `t` and dropped it. -/
def droppedT : SessionEngine :=
  ((connectedA.applyDdl createTableT).1.applyDdl (.dropTable [116] false)).1

theorem ddlRun_droppedT :
    DdlRun (fun _ => 0) [(.opened fun _ => 0, createUserA), (connectedA, createTableT),
      ((connectedA.applyDdl createTableT).1, .dropTable [116] false)] droppedT := by
  refine .statement (.statement (.statement .opened ?_ _) ?_ _) ?_ _
  · exact ⟨rfl, rfl, le_rfl⟩
  · exact ⟨rfl, rfl, le_rfl⟩
  · exact ⟨rfl, rfl, le_rfl⟩

/-- Before the restart the role still reads the past of the table it dropped, after it no more. -/
theorem drop_table_keeps_policy :
    ¬ ∀ (inner : ℕ → SystemTimeMicros) (steps : List (SessionEngine × SessionEngine.DdlStatement))
      (s : SessionEngine), DdlRun inner steps s →
        (∀ p ∈ steps, (p.1.applyDdl p.2).2 = .ok ()) → s.Replays := by
  intro hall
  obtain ⟨r, hr, -, -, hdecide⟩ := hall _ _ _ ddlRun_droppedT (by decide)
  have hlive : droppedT.authorizeAt [97] [116] .select 2 = .ok () := by decide
  have hreplayed : ∀ r, ReplayedCatalog.replay droppedT.catalogLog.frames =
      .ok r → (r.session droppedT).authorizeAt [97] [116] .select 2 ≠ .ok () := by
    have hfold : (match ReplayedCatalog.replay droppedT.catalogLog.frames with
      | .ok r => (r.session droppedT).authorizeAt [97] [116] .select 2
      | .error e => .error e) ≠ .ok () := by decide
    intro r hr
    rwa [hr] at hfold
  exact hreplayed r hr ((hdecide _ _ _ _).trans hlive)

/-- The built-in superuser has created `t`. -/
def createdT : SessionEngine := ((SessionEngine.opened fun _ => 0).applyDdl createTableT).1

theorem unprivileged_createdT : createdT.catalogState.Unprivileged [116] := by
  have hpolicy : createdT.catalogState.access.policy [116] = (some wirePrincipal, ∅) := by
    decide
  intro role privilege hpass
  rcases CatalogState.passes_iff.1 hpass with hs | hp
  · exact hs
  · rw [hpolicy] at hp
    rcases hp with howner | hgrant | hgrant
    · cases howner
      rfl
    · cases hgrant
    · cases hgrant

/-- `CREATE USER ""`. -/
def createUserUnnamed : SessionEngine.DdlStatement :=
  .createUser [] ⟨4096, [], fun _ => 0, fun _ => 0⟩ false

/-- `GRANT SELECT ON t TO ""`. -/
def grantUnnamed : SessionEngine.DdlStatement := .grant [116] (.role []) [.select]

/-- The role with the empty name may read `t`. -/
def grantedUnnamed : SessionEngine :=
  ((createdT.applyDdl createUserUnnamed).1.applyDdl grantUnnamed).1

/-- A restart takes a grant to the role with the empty name for one to `PUBLIC`, although every
statement forgets alike. -/
theorem unnamed_grantee_reads_public :
    DdlRun (fun _ => 0) [(.opened fun _ => 0, createTableT), (createdT, createUserUnnamed),
        ((createdT.applyDdl createUserUnnamed).1, grantUnnamed)] grantedUnnamed ∧
      createdT.ForgetsAlike createUserUnnamed ∧
      (createdT.applyDdl createUserUnnamed).1.ForgetsAlike grantUnnamed ∧
      ¬grantedUnnamed.Replays := by
  refine ⟨.statement (.statement (.statement .opened ?_ _) ?_ _) ?_ _, trivial, trivial, ?_⟩
  · exact ⟨rfl, rfl, le_rfl⟩
  · exact ⟨rfl, rfl, le_rfl⟩
  · exact ⟨rfl, rfl, le_rfl⟩
  rintro ⟨r, hr, -, -, hdecide⟩
  have hlive : grantedUnnamed.authorizeAt [98] [116] .select 2 ≠ .ok () := by decide
  have hfold : (match ReplayedCatalog.replay grantedUnnamed.catalogLog.frames with
    | .ok r => (r.session grantedUnnamed).authorizeAt [98] [116] .select 2
    | .error e => .error e) = .ok () := by decide
  rw [hr] at hfold
  exact hlive ((hdecide _ _ _ _).symm.trans hfold)

/-- The built-in superuser's own tables come and go the same before and after a restart. -/
theorem replays_of_superuser_drop :
    ((SessionEngine.opened fun _ => 0).applyDdl createTableT).1.Replays ∧
      (createdT.applyDdl (.dropTable [116] false)).1.Replays := by
  have hcreate : DdlRun (fun _ => 0) [(.opened fun _ => 0, createTableT)] createdT :=
    .statement .opened ⟨rfl, rfl, le_rfl⟩ createTableT
  have hdrop := hcreate.statement ⟨rfl, rfl, le_rfl⟩ (.dropTable [116] false)
  have hreads : ∀ p ∈ [((SessionEngine.opened fun _ => 0), createTableT)] ++
      [(createdT, .dropTable [116] false)], p.1.Rereads p.2 := by
    intro p hp
    rcases List.mem_pair.1 hp with rfl | rfl
    · have hns : (((SessionEngine.opened fun _ => 0).tables[([116] : Name)]?).map
          TableState.ns).getD 0 < 2 ^ 64 := by decide
      exact ⟨⟨by decide, by decide, hns⟩, by decide⟩
    · exact ⟨⟨by decide, by decide, trivial⟩, by decide⟩
  have hall := (replays_iff_forgetsAlike hdrop hreads).2 fun p hp => by
    rcases List.mem_pair.1 hp with rfl | rfl
    · exact trivial
    · exact fun _ _ _ => unprivileged_createdT
  rw [List.forall_mem_append, List.forall_mem_singleton, List.forall_mem_singleton] at hall
  exact hall

end SteleDb
