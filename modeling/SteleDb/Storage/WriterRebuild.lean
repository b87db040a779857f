import SteleDb.Storage.Rebuild
import SteleDb.Storage.Undo

/-!
# Rebuilding the index of what a writer wrote

A writer stamps its writes with the readings of a clock, resolves each against the tiers and the
sealed segments, and applies the redo set.  Now and then what is staged is sealed.  The redo sets
applied say which versions and which tombstones the segments will hold, and which closes the index
was given.

* `WriterRun.sound_of_reachable` : a run of a writer stores the history of its writes;
* `WriterRun.rebuild_of_run` : from the versions and tombstones of a run, in any order, the rebuild
  finds the closes that the run gave its index, and no others.
-/

namespace SteleDb

open Timeline

/-! ### Runs -/

/-- A call of the writer. -/
inductive WriterCall where
  /-- Open the first version of a key. -/
  | insert (key : BusinessKey) (payload : Option Bytes) (seq : Seq) (txnId : TxnId)
      (principal : Bytes)
  /-- Supersede the live version of a key. -/
  | update (key : BusinessKey) (payload : Option Bytes) (seq : Seq) (txnId : TxnId)
      (principal : Bytes)
  /-- Close the live version of a key without a successor. -/
  | delete (key : BusinessKey) (txnId : TxnId) (principal : Bytes)
  deriving DecidableEq

/-- A writer with its table, and the redo sets applied so far. -/
structure WriterRun where
  /-- The writer. -/
  writer : SysTimeWriter := {}
  /-- Delta tier and validity index. -/
  tiers : Tiers := {}
  /-- The versions of the sealed segments. -/
  sealedVersions : List Version := []
  /-- What was applied. -/
  redos : List Redo := []

/-- The versions that redo sets assert. -/
def Redo.versions (redos : List Redo) : List Version :=
  redos.filterMap fun r => match r with
    | .insert v => some v
    | _ => none

/-- The tombstones of redo sets. -/
def Redo.retractions (redos : List Redo) : List Close :=
  redos.filterMap fun r => match r with
    | .retract c => some c
    | _ => none

/-- The closes that redo sets give to the index. -/
def Redo.closes (redos : List Redo) : List Close :=
  redos.filterMap fun r => match r with
    | .insert _ => none
    | .close c => some c
    | .retract c => some c

namespace WriterRun

/-- Stamp and resolve a call. -/
def stage (r : WriterRun) (now : SystemTimeMicros) :
    WriterCall → SysTimeWriter × Except SysTimeError (SystemTimeMicros × List Redo)
  | .insert key payload seq txnId principal =>
    r.writer.stageInsert now r.tiers r.sealedVersions key payload seq txnId principal
  | .update key payload seq txnId principal =>
    r.writer.stageUpdate now r.tiers r.sealedVersions key payload seq txnId principal
  | .delete key txnId principal =>
    r.writer.stageDelete now r.tiers r.sealedVersions key txnId principal

/-- The versions of redo sets come after all of their keys that were asserted before. -/
def Increasing (r : WriterRun) (redos : List Redo) : Prop :=
  ∀ v ∈ Redo.versions redos, ∀ v' ∈ Redo.versions r.redos,
    v'.businessKey = v.businessKey → v'.pos < v.pos

/-- One step of a run. -/
inductive Step (r : WriterRun) : WriterRun → Prop
  /-- A write. -/
  | write {now : SystemTimeMicros} {call : WriterCall} {w : SysTimeWriter}
      {commit : SystemTimeMicros} {redos : List Redo} {t : Tiers}
      (staged : r.stage now call = (w, .ok (commit, redos)))
      (applied : apply r.tiers redos = (t, .ok ())) (increasing : r.Increasing redos) :
      Step r { r with writer := w, tiers := t, redos := r.redos ++ redos }
  /-- A write that is refused. -/
  | refuse {now : SystemTimeMicros} {call : WriterCall} {w : SysTimeWriter} {e : SysTimeError}
      (staged : r.stage now call = (w, .error e)) : Step r { r with writer := w }
  /-- What is staged is sealed. -/
  | flush : Step r { r with
      tiers := { r.tiers with delta := r.tiers.delta.discardFlushed }
      sealedVersions := r.sealedVersions ++ r.tiers.delta.stagedVersions }

/-- The runs of a writer on a new table. -/
def Reachable (c : DeltaConfig) (c' : ValidityConfig) : WriterRun → Prop :=
  Relation.ReflTransGen Step { tiers := { delta := { config := c }, index := { config := c' } } }

/-! ### A run stores the history of its writes -/

/-- The table stores the history that the redo sets applied make. -/
structure Sound (r : WriterRun) (H : History) : Prop where
  stores : Stores r.tiers r.sealedVersions H
  writes : Writes History.empty r.redos H
  bounded : ∀ k, ∀ e ∈ H k, ∃ prev ∈ r.writer.lastCommit, e.instant ≤ prev

theorem mem_versions {redos : List Redo} {v : Version} :
    v ∈ Redo.versions redos ↔ Redo.insert v ∈ redos := by
  rw [Redo.versions, List.mem_filterMap]
  constructor
  · rintro ⟨r, hr, hv⟩
    rcases r with w | c | c <;> cases hv
    exact hr
  · exact fun h => ⟨_, h, rfl⟩

theorem mem_retractions {redos : List Redo} {c : Close} :
    c ∈ Redo.retractions redos ↔ Redo.retract c ∈ redos := by
  rw [Redo.retractions, List.mem_filterMap]
  constructor
  · rintro ⟨r, hr, hc⟩
    rcases r with w | c' | c' <;> cases hc
    exact hr
  · exact fun h => ⟨_, h, rfl⟩

theorem mem_closes {redos : List Redo} {c : Close} :
    c ∈ Redo.closes redos ↔ Redo.close c ∈ redos ∨ Redo.retract c ∈ redos := by
  rw [Redo.closes, List.mem_filterMap]
  constructor
  · rintro ⟨r, hr, hc⟩
    rcases r with w | c' | c' <;> cases hc
    · exact .inl hr
    · exact .inr hr
  · rintro (h | h)
    · exact ⟨_, h, rfl⟩
    · exact ⟨_, h, rfl⟩

/-! ### What was applied fits its frames -/

theorem encodable_of_insert {t t' : Tiers} {v : Version} {b : Bool}
    (h : applyRedo b t (.insert v) = (t', .ok ())) : v.Encodable := by
  by_contra hv
  rw [applyRedo, Delta.insertInner, Version.checkEncodable, if_neg hv] at h
  cases h

theorem encodable_of_close {t t' : Tiers} {c : Close} {b : Bool}
    (h : applyRedo b t (.close c) = (t', .ok ())) : c.Encodable := by
  by_contra hc
  rw [applyRedo, ValidityIndex.insertCloseInner, Close.checkEncodable, if_neg hc] at h
  cases h

theorem encodable_of_retract {t t' : Tiers} {c : Close} {b : Bool}
    (h : applyRedo b t (.retract c) = (t', .ok ())) : c.Encodable := by
  by_contra hc
  rw [applyRedo, ValidityIndex.insertCloseInner, Close.checkEncodable, if_neg hc] at h
  cases h

theorem apply_cons {t t' : Tiers} {redo : Redo} {redos : List Redo}
    (h : apply t (redo :: redos) = (t', .ok ())) :
    ∃ t₁, applyRedo true t redo = (t₁, .ok ()) ∧ apply t₁ redos = (t', .ok ()) := by
  simp only [apply, applyRedos] at h
  rcases hr : applyRedo true t redo with ⟨t₁, err | u⟩
  · rw [hr] at h
    cases h
  · rw [hr] at h
    exact ⟨t₁, rfl, h⟩

/-! ### One step -/

namespace Sound

variable {r : WriterRun} {H : History} {now : SystemTimeMicros} {key : BusinessKey} {e : KeyEvent}
  {redos : List Redo} {t : Tiers}

/-- No write is stamped later than the clock reads. -/
theorem instant_le (h : r.Sound H) (hprev : ∀ prev ∈ r.writer.lastCommit, prev ≤ now)
    (k : BusinessKey) : ∀ e ∈ H k, e.instant ≤ now := by
  intro e he
  obtain ⟨prev, hlast, hle⟩ := h.bounded k e he
  exact hle.trans (hprev prev hlast)

/-- The versions of the history are those applied. -/
theorem asserts_iff (h : r.Sound H) {v : Version} : H.Asserts v ↔ v ∈ Redo.versions r.redos := by
  rw [h.writes.asserts, mem_versions]
  refine or_iff_right ?_
  rintro ⟨k, p, hp, -⟩
  cases hp

/-- A version that comes after those of its key keeps the history well formed. -/
theorem wellFormed_write (h : r.Sound H) (hprev : ∀ prev ∈ r.writer.lastCommit, prev ≤ now)
    (hnow : now < systemTimeOpen) (he : e.instant = now)
    (hpos : ∀ a ∈ e.value, ∀ v ∈ Redo.versions r.redos, v.businessKey = key →
      v.pos < toLex (now, a.1)) : (H.write key e).WellFormed := by
  refine h.stores.wellFormed.write (fun e' he' => ?_) (by rwa [he]) fun a ha e' he' b hb => ?_
  · rw [he]
    exact h.instant_le hprev key e' he'
  · obtain ⟨p, hp, hstart, -, hvalue⟩ : ∃ p ∈ H.periodsOf key, p.start = e'.instant ∧
        p.author = e'.author ∧ p.value = b := exists_mem_periods_of_event he' hb
    have hlt := hpos a ha _ (h.asserts_iff.1 ⟨key, p, hp, rfl⟩) rfl
    rwa [KeyPeriod.version_pos, KeyPeriod.pos, hstart, hvalue, ← he] at hlt

/-- A write that is applied. -/
theorem extend (h : r.Sound H) (hprev : ∀ prev ∈ r.writer.lastCommit, prev ≤ now)
    (he : e.instant = now) (hw : Writes H redos (H.write key e))
    (applied : apply r.tiers redos = (t, .ok ())) :
    Sound { r with writer := ⟨some now⟩, tiers := t, redos := r.redos ++ redos }
      (H.write key e) := by
  obtain ⟨t', ht', hstores, -⟩ := h.stores.applyRedos hw true
  obtain rfl : t = t' := by
    have hboth := applied.symm.trans ht'
    exact congrArg Prod.fst hboth
  refine ⟨hstores, h.writes.trans hw, fun k e' he' => ⟨now, rfl, ?_⟩⟩
  by_cases hk : k = key
  · subst hk
    rw [History.write_self] at he'
    rcases List.mem_cons.1 he' with rfl | he'
    · exact he.le
    · exact h.instant_le hprev k e' he'
  · rw [History.write_of_ne hk] at he'
    exact h.instant_le hprev k e' he'

section Calls

variable {payload : Option Bytes} {seq : Seq} {txnId : TxnId} {principal : Bytes}
  {w : SysTimeWriter} {commit : SystemTimeMicros}
  (h : r.Sound H) (hprev : ∀ prev ∈ r.writer.lastCommit, prev ≤ now) (hnow : now < systemTimeOpen)
  (applied : apply r.tiers redos = (t, .ok ())) (increasing : r.Increasing redos)

include h hprev hnow applied increasing

theorem insert (staged : r.stage now (.insert key payload seq txnId principal) =
    (w, .ok (commit, redos))) :
    ∃ H', Sound { r with writer := w, tiers := t, redos := r.redos ++ redos } H' := by
  have hstage := @Stores.stageInsert _ _ _ r.writer now key payload seq txnId principal
    h.stores hprev
    hnow (h.instant_le hprev key)
  by_cases hl : H.Live key
  · have hrefused := (hstage.1 hl).symm.trans staged
    cases hrefused
  · have hstaged := (hstage.2 hl).symm.trans staged
    cases hstaged
    obtain ⟨t₁, ht₁, -⟩ := apply_cons applied
    have hwf := h.wellFormed_write (e := keyEvent now txnId principal (some (seq, payload))) hprev
      hnow rfl fun a ha v hv hk => by
        cases ha
        exact increasing (openVersion key now seq payload txnId principal)
          (mem_versions.2 List.mem_cons_self) v hv hk
    have hwrites := Writes.insert (a := (seq, payload)) (History.not_live_iff.1 hl) rfl hwf
      (encodable_of_insert ht₁) (.nil _)
    exact ⟨_, h.extend hprev rfl hwrites applied⟩

theorem update (staged : r.stage now (.update key payload seq txnId principal) =
    (w, .ok (commit, redos))) :
    ∃ H', Sound { r with writer := w, tiers := t, redos := r.redos ++ redos } H' := by
  have hstage := @Stores.stageUpdate _ _ _ r.writer now key payload seq txnId principal
    h.stores hprev
    hnow (h.instant_le hprev key)
  by_cases hl : H.Live key
  · obtain ⟨p, hp, hst⟩ := hl
    have hstaged := (hstage.2 p hp hst).symm.trans staged
    cases hstaged
    obtain ⟨t₁, ht₁, hrest⟩ := apply_cons applied
    obtain ⟨t₂, ht₂, -⟩ := apply_cons hrest
    have hwf := h.wellFormed_write (e := keyEvent now txnId principal (some (seq, payload))) hprev
      hnow rfl fun a ha v hv hk => by
        cases ha
        exact increasing (openVersion key now seq payload txnId principal)
          (mem_versions.2 (List.mem_cons_of_mem _ List.mem_cons_self)) v hv hk
    have hwrites := Writes.update (a := (seq, payload)) hp hst rfl hwf (encodable_of_close ht₁)
      (encodable_of_insert ht₂) (.nil _)
    exact ⟨_, h.extend hprev rfl hwrites applied⟩
  · have hrefused := (hstage.1 hl).symm.trans staged
    cases hrefused

theorem delete (staged : r.stage now (.delete key txnId principal) = (w, .ok (commit, redos))) :
    ∃ H', Sound { r with writer := w, tiers := t, redos := r.redos ++ redos } H' := by
  have hstage := @Stores.stageDelete _ _ _ r.writer now key txnId principal h.stores hprev hnow
    (h.instant_le hprev key)
  by_cases hl : H.Live key
  · obtain ⟨p, hp, hst⟩ := hl
    have hstaged := (hstage.2 p hp hst).symm.trans staged
    cases hstaged
    obtain ⟨t₁, ht₁, -⟩ := apply_cons applied
    have hwf : (H.write key (keyEvent now txnId principal none)).WellFormed :=
      h.wellFormed_write hprev hnow rfl fun a ha => nomatch ha
    have hwrites := Writes.delete hp hst rfl hwf (encodable_of_retract ht₁) (.nil _)
    exact ⟨_, h.extend hprev rfl hwrites applied⟩
  · have hrefused := (hstage.1 hl).symm.trans staged
    cases hrefused

end Calls

/-- A write keeps the table sound. -/
theorem write (h : r.Sound H) {call : WriterCall} {w : SysTimeWriter} {commit : SystemTimeMicros}
    (staged : r.stage now call = (w, .ok (commit, redos)))
    (applied : apply r.tiers redos = (t, .ok ())) (increasing : r.Increasing redos) :
    ∃ H', Sound { r with writer := w, tiers := t, redos := r.redos ++ redos } H' := by
  rcases r.writer.nextCommitTs_cases now with ⟨err, hts⟩ | ⟨hts, hprev, hnow⟩
  · rcases call with ⟨key, payload, seq, txnId, principal⟩ | ⟨key, payload, seq, txnId, principal⟩ |
      ⟨key, txnId, principal⟩
    · simp only [stage, SysTimeWriter.stageInsert, hts] at staged
      cases staged
    · simp only [stage, SysTimeWriter.stageUpdate, hts] at staged
      cases staged
    · simp only [stage, SysTimeWriter.stageDelete, hts] at staged
      cases staged
  · cases call with
    | insert key payload seq txnId principal =>
      exact h.insert hprev hnow applied increasing staged
    | update key payload seq txnId principal =>
      exact h.update hprev hnow applied increasing staged
    | delete key txnId principal => exact h.delete hprev hnow applied increasing staged

/-- A write that is refused changes at most the last commit. -/
theorem refuse (h : r.Sound H) {call : WriterCall} {w : SysTimeWriter} {err : SysTimeError}
    (staged : r.stage now call = (w, .error err)) : Sound { r with writer := w } H := by
  have hwriter : w = r.writer ∨ w = ⟨some now⟩ ∧ ∀ prev ∈ r.writer.lastCommit, prev ≤ now := by
    have hw : w = (r.writer.nextCommitTs now).1 := by
      have hfst : (r.stage now call).1 = w := congrArg Prod.fst staged
      rw [← hfst]
      rcases r.writer.nextCommitTs_cases now with ⟨err, hts⟩ | ⟨hts, -⟩
      · cases call <;>
          simp only [stage, SysTimeWriter.stageInsert, SysTimeWriter.stageUpdate,
            SysTimeWriter.stageDelete, hts]
      · cases call <;>
          simp only [stage, SysTimeWriter.stageInsert, SysTimeWriter.stageUpdate,
            SysTimeWriter.stageDelete, hts] <;> split <;> rfl
    rcases r.writer.nextCommitTs_cases now with ⟨err, hts⟩ | ⟨hts, hprev, -⟩
    · exact .inl (by rw [hw, hts])
    · exact .inr ⟨by rw [hw, hts], hprev⟩
  obtain rfl | ⟨rfl, hprev⟩ := hwriter
  · exact h
  · exact ⟨h.stores, h.writes, fun k e he => ⟨now, rfl, h.instant_le hprev k e he⟩⟩

/-- Sealing what is staged changes no history. -/
theorem flush (h : r.Sound H) :
    Sound { r with
      tiers := { r.tiers with delta := r.tiers.delta.discardFlushed }
      sealedVersions := r.sealedVersions ++ r.tiers.delta.stagedVersions } H :=
  ⟨h.stores.sealStaged fun _ => List.mem_append, h.writes, h.bounded⟩

theorem step (h : r.Sound H) {r' : WriterRun} (hs : r.Step r') : ∃ H', r'.Sound H' := by
  cases hs with
  | write staged applied increasing => exact h.write staged applied increasing
  | refuse staged => exact ⟨H, h.refuse staged⟩
  | flush => exact ⟨H, h.flush⟩

end Sound

/-- **A run of a writer stores the history of its writes.** -/
theorem sound_of_reachable {c : DeltaConfig} {c' : ValidityConfig} {r : WriterRun}
    (h : Reachable c c' r) : ∃ H, r.Sound H := by
  induction h with
  | refl =>
    exact ⟨History.empty, Stores.empty c c', .nil _, fun k e he => nomatch he⟩
  | tail _ hs ih =>
    obtain ⟨H, hr⟩ := ih
    exact hr.step hs

/-! ### The rebuild of a run -/

/-- The closes of a run are those that its redo sets gave to the index. -/
theorem closes_of_writes {H H' : History} {redos : List Redo} (h : Writes H redos H')
    (hH : H.WellFormed) {c : Close} : H'.Closes c ↔ H.Closes c ∨ c ∈ Redo.closes redos := by
  have hone : ∀ {H : History} {k : BusinessKey} {e : KeyEvent} {p : KeyPeriod}, H.WellFormed →
      p ∈ H.periodsOf k → p.stop = none →
      ((∃ q ∈ H.periodsOf k, q.stop = none ∧ KeyPeriod.closeBy k q e = c) ↔
        c = KeyPeriod.closeBy k p e) := by
    intro H k e p hH hp hlive
    constructor
    · rintro ⟨q, hq, hqn, rfl⟩
      -- a key has one open period
      rcases hH.periods_trichotomy hq hp with rfl | ⟨-, u, hu, -⟩ | ⟨-, u, hu, -⟩
      · rfl
      · rw [hqn] at hu
        cases hu
      · rw [hlive] at hu
        cases hu
    · rintro rfl
      exact ⟨p, hp, hlive, rfl⟩
  rw [mem_closes]
  induction h with
  | nil H => simp
  | @insert H H' redos k e a hdead ha hwf henc _ ih =>
    have hnone : ¬ ∃ q ∈ H.periodsOf k, q.stop = none ∧ KeyPeriod.closeBy k q e = c :=
      fun ⟨q, hq, hst, _⟩ => hdead q hq hst
    refine (ih hwf).trans ?_
    rw [History.closes_write, List.mem_cons, List.mem_cons]
    simp only [hnone, or_false, reduceCtorEq, false_or]
  | update hp hlive ha hwf hcl henc _ ih =>
    refine (ih hwf).trans ?_
    rw [History.closes_write, hone hH hp hlive]
    simp only [List.mem_cons, Redo.close.injEq, reduceCtorEq, false_or, or_assoc]
  | delete hp hlive ha hwf hcl _ ih =>
    refine (ih hwf).trans ?_
    rw [History.closes_write, hone hH hp hlive]
    simp only [List.mem_cons, Redo.retract.injEq, reduceCtorEq, false_or]
    tauto

/-- A close is in an index exactly if it answers for its version. -/
theorem has_iff {ix : ValidityIndex} (hw : ix.WriteOnce) {x : Close} :
    ix.Has x ↔ ix.closeOf x.target = some x.interval := by
  rw [ValidityIndex.closeOf_eq_some hw]
  constructor
  · exact fun hx => ⟨x, hx, rfl, rfl⟩
  · rintro ⟨y, hy, ht, hi⟩
    have hxy : y = x := by
      obtain ⟨key, sysFrom, seq, sysTo, closedBy⟩ := x
      simp only [Close.target, EmbeddingLike.apply_eq_iff_eq, Prod.mk.injEq] at ht
      simp only [Close.interval, ClosedInterval.mk.injEq] at hi
      obtain ⟨rfl, rfl, rfl⟩ := ht
      obtain ⟨rfl, rfl⟩ := hi
      rfl
    rwa [← hxy]

/-- **The rebuild of a run.**  From its versions and tombstones in any order the rebuild finds
exactly the closes that its redo sets make in an empty index; every read of an end agrees with the
index of the run.  A version that a delete ended is closed at the delete. -/
theorem rebuild_of_run {c : DeltaConfig} {c' : ValidityConfig} {r : WriterRun}
    (h : Reachable c c' r) {versions : List Version} {retractions : List Close}
    (hversions : versions.Perm (Redo.versions r.redos))
    (hretractions : retractions.Perm (Redo.retractions r.redos)) :
    ∃ ix ix', rebuildIndexFromSegments versions retractions {} = (ix, .ok ()) ∧
      insertCloses {} (Redo.closes r.redos) = (ix', .ok ()) ∧
      (∀ x, ix.Has x ↔ ix'.Has x) ∧ (∀ i, ix.closeOf i = ix'.closeOf i) ∧
      (∀ i, ix.closeOf i = r.tiers.index.closeOf i) ∧
      ∀ x ∈ retractions, ix.closeOf x.target = some x.interval := by
  obtain ⟨H, hr⟩ := sound_of_reachable h
  have hwf := hr.stores.wellFormed
  have hclosesEmpty : ∀ x, ¬ History.empty.Closes x := by
    rintro x ⟨k, p, hp, -⟩
    cases hp
  have hcloses : ∀ x, H.Closes x ↔ x ∈ Redo.closes r.redos := fun x =>
    (closes_of_writes hr.writes History.wellFormed_empty).trans (or_iff_right (hclosesEmpty x))
  have hfit : H.ClosesFit := hr.writes.closesFit History.wellFormed_empty fun x hx =>
    absurd hx (hclosesEmpty x)
  have hretracts : ∀ x, x ∈ retractions ↔ H.Retracts x := by
    intro x
    rw [hretractions.mem_iff, mem_retractions, hr.writes.retracts History.wellFormed_empty]
    exact (or_iff_right fun hx => hclosesEmpty x hx.closes).symm
  obtain ⟨ix, hix, hstores⟩ := rebuild_spec hwf
    (fun v => (hversions.mem_iff).trans hr.asserts_iff.symm) hfit hretracts
  have hempty : ∀ x, ¬ ({} : ValidityIndex).Has x := fun x hx => by
    simp [ValidityIndex.Has, ValidityIndex.spillCloses] at hx
  obtain ⟨ix', hix', hw', -, hhas'⟩ := insertCloses_clean
    (fun x y hx => absurd hx (hempty x)) (fun o ho => absurd ho List.not_mem_nil)
    (fun x hx => hfit x ((hcloses x).2 hx)) fun x hx y hy =>
      hwf.closes_inj ((hcloses x).2 hx) ((hcloses y).2 (hy.resolve_right (hempty y)))
  have hreplayed : Represents H.Asserts ix'.closeOf H :=
    Represents.of_has hwf hw' (fun v => Iff.rfl) fun x => by
      rw [hhas', hcloses]
      exact or_iff_left (hempty x)
  have hsame : ∀ i, ix.closeOf i = ix'.closeOf i := hstores.represents.close_congr hreplayed
  refine ⟨ix, ix', hix, hix', fun x => ?_, hsame,
    hstores.represents.close_congr hr.stores.represents, fun x hx => ?_⟩
  · rw [has_iff hstores.writeOnce, has_iff hw', hsame]
  · rw [hsame, ← has_iff hw', hhas']
    exact .inl ((hcloses x).1 ((hretracts x).1 hx).closes)

/-- What a write leaves. -/
def perform (r : WriterRun) (now : SystemTimeMicros) (call : WriterCall) : WriterRun :=
  match r.stage now call with
  | (w, .ok (_, redos)) =>
    { r with writer := w, tiers := (apply r.tiers redos).1, redos := r.redos ++ redos }
  | (w, .error _) => { r with writer := w }

/-- A write that is staged, applied, and comes after those of its keys. -/
def Performs (r : WriterRun) (now : SystemTimeMicros) (call : WriterCall) : Prop :=
  match (r.stage now call).2 with
  | .ok (_, redos) => (apply r.tiers redos).2 = .ok () ∧ r.Increasing redos
  | .error _ => False

instance (r : WriterRun) (redos : List Redo) : Decidable (r.Increasing redos) :=
  inferInstanceAs (Decidable (∀ _ ∈ _, ∀ _ ∈ _, _ → _))

instance (r : WriterRun) (now : SystemTimeMicros) (call : WriterCall) :
    Decidable (r.Performs now call) := by
  unfold Performs
  split <;> infer_instance

theorem Reachable.perform {c : DeltaConfig} {c' : ValidityConfig} {r : WriterRun}
    (h : Reachable c c' r) {now : SystemTimeMicros} {call : WriterCall}
    (hp : r.Performs now call) : Reachable c c' (r.perform now call) := by
  refine Relation.ReflTransGen.tail h ?_
  rcases hs : r.stage now call with ⟨w, err | ⟨commit, redos⟩⟩
  · rw [Performs, hs] at hp
    exact hp.elim
  · rw [Performs, hs] at hp
    rw [WriterRun.perform, hs]
    exact .write hs (Prod.ext rfl hp.1) hp.2

/-- Insert a row, delete it, and insert its key again. -/
def reinserted : WriterRun :=
  ((perform {} 10 (.insert [1] none 1 7 [])).perform 20 (.delete [1] 8 [])).perform 30
    (.insert [1] none 2 9 [])

theorem reachable_reinserted : Reachable {} {} reinserted :=
  ((Reachable.perform (r := {}) .refl (by decide)).perform (by decide)).perform
    (by decide)

/-- The first version is closed at the delete, at 20, and not at the second insert, at 30. -/
theorem rebuild_of_run_reinserted :
    ∃ ix, rebuildIndexFromSegments (Redo.versions reinserted.redos).reverse
        (Redo.retractions reinserted.redos) {} = (ix, .ok ()) ∧
      ix.closeOf (toLex ([1], toLex (10, 1))) = some ⟨20, ⟨8, 20, []⟩⟩ := by
  obtain ⟨ix, ix', hix, -, -, -, -, hclosed⟩ :=
    rebuild_of_run reachable_reinserted (List.reverse_perm _) (List.Perm.refl _)
  have hmem : (⟨[1], 10, 1, 20, ⟨8, 20, []⟩⟩ : Close) ∈ Redo.retractions reinserted.redos := by
    decide
  exact ⟨ix, hix, hclosed _ hmem⟩

end WriterRun

end SteleDb
