import SteleDb.Session.Engine
import SteleDb.Storage.CrashRuns

/-!
# Closing the rows of a dropped era

A `DROP TABLE` closes the open rows of its table one by one, each at its own reading of the clock.
The catalog records the drop before these closes are durable, so recovery runs them again: every key
whose current version was opened by the drop is deleted, and the rows of a table created again under
the name, which are newer, stay.

* `Engine.closeDroppedEra` : the call; `Engine.deleteKeys_eq` : the deletes that a session makes at
  boot are those of the call, read off the session's clock;
* `Host.closeDroppedEra_of_run` : after any run the call closes the keys it lists, in their order,
  as far as the clock and the log take the deletes; reads before a close and of other keys stay; and
  the call made again, also after a crash and recovery, lists the keys that are left;
* `Host.closeDroppedEra_stops` : the snapshot at which the call reads the table has to be past the
  closes stored, too.
-/

namespace SteleDb

open Timeline

/-! ### The call -/

namespace Engine

/-- Delete keys one by one, the next at the next reading of the clock. -/
def deleteEach (e : Engine) (clock : ℕ → SystemTimeMicros) (txnId : TxnId) (principal : Bytes) :
    List BusinessKey → Engine × Except DmlError Unit
  | [] => (e, .ok ())
  | k :: ks =>
    match e.write ⟨clock 0, k, txnId, principal, .delete⟩ with
    | (e, .error err) => (e, .error err)
    | (e, .ok _) => e.deleteEach (fun i => clock (i + 1)) txnId principal ks

/-- Close the rows that are open at `now` and were opened by `at_`, and count them. -/
def closeDroppedEra (e : Engine) (clock : ℕ → SystemTimeMicros) (at_ now : SystemTimeMicros)
    (txnId : TxnId) (principal : Bytes) : Engine × Except DmlError ℕ :=
  match e.deleteEach clock txnId principal (e.staleKeys at_ now) with
  | (e', .error err) => (e', .error err)
  | (e', .ok ()) => (e', .ok (e.staleKeys at_ now).length)

end Engine

/-- The commit times that a clock hands out from now on. -/
def MonotonicClock.readings (c : MonotonicClock) (i : ℕ) : SystemTimeMicros :=
  ((fun c : MonotonicClock => c.now.1)^[i] c).now.2

namespace Engine

/-- The deletes of a session are those of the call. -/
theorem deleteKeys_eq (clock : MonotonicClock) (txnId : TxnId) (principal : Bytes) (e : Engine)
    (ks : List BusinessKey) :
    ((e.deleteKeys clock txnId principal ks).1, (e.deleteKeys clock txnId principal ks).2.2) =
      e.deleteEach clock.readings txnId principal ks := by
  induction ks generalizing e clock with
  | nil => rfl
  | cons k ks ih =>
    have hzero : clock.readings 0 = clock.now.2 := rfl
    have hsucc : (fun i => clock.readings (i + 1)) = clock.now.1.readings := by
      funext i
      rw [MonotonicClock.readings, Function.iterate_succ_apply, MonotonicClock.readings]
    rw [deleteKeys, deleteEach, hzero, hsucc]
    rcases e.write ⟨clock.now.2, k, txnId, principal, .delete⟩ with ⟨e', err | t⟩
    · rfl
    · exact ih _ _

/-- `now` is no earlier than any instant stored: no version begins later, and none ends later. -/
structure KnownBy (e : Engine) (now : SystemTimeMicros) : Prop where
  opened : ∀ v ∈ e.tiers.delta.stagedVersions ++ e.sealedVersions, v.sysFrom ≤ now
  closed : ∀ entry ∈ e.tiers.index.materialize.toList, entry.2.sysTo ≤ now

end Engine

/-- The clock or the log refused a write, not the row. -/
def DmlError.OfClockOrLog : DmlError → Prop
  | .resolve (.sysTime .clockRegressed) => True
  | .resolve (.sysTime .timeExhausted) => True
  | .validity _ => True
  | .wal _ => True
  | _ => False

/-- The version as it reads after the open row was closed. -/
def Version.closeAt (v : Version) (ci : ClosedInterval) : Version :=
  if v.sysTo = systemTimeOpen then v.stamp (some ci) else v

/-- `e'` answers as `e` after the first `m` of the keys were closed, each at its reading of the
clock. -/
structure Engine.ClosedFirst (e e' : Engine) (clock : ℕ → SystemTimeMicros) (txnId : TxnId)
    (principal : Bytes) (ks : List BusinessKey) (m : ℕ) : Prop where
  /-- A closed key has no version from its close on, and before it what it had, the version closed
  with its end. -/
  closed : ∀ i < m, ∀ k, ks[i]? = some k → ∀ s, e'.asOf k s =
    if s < clock i then (e.asOf k s).map fun v => v.closeAt ⟨clock i, ⟨txnId, clock i, principal⟩⟩
    else none
  /-- The other keys read as they did. -/
  kept : ∀ k, k ∉ ks.take m → ∀ s, e'.asOf k s = e.asOf k s

/-! ### Histories -/

namespace History

/-- The history after keys were deleted one by one. -/
def deleteEach (H : History) (clock : ℕ → SystemTimeMicros) (txnId : TxnId) (principal : Bytes) :
    List BusinessKey → History
  | [] => H
  | k :: ks =>
    (H.write k (keyEvent (clock 0) txnId principal none)).deleteEach (fun i => clock (i + 1)) txnId
      principal ks

variable {H : History} {clock : ℕ → SystemTimeMicros} {txnId : TxnId} {principal : Bytes}
  {k : BusinessKey} {ks : List BusinessKey}

theorem deleteEach_of_notMem (h : k ∉ ks) : H.deleteEach clock txnId principal ks k = H k := by
  induction ks generalizing H clock with
  | nil => rfl
  | cons k' ks ih =>
    simp only [List.mem_cons, not_or] at h
    rw [deleteEach, ih h.2, write_of_ne h.1]

/-- A key that is among the keys deleted once gets one event. -/
theorem deleteEach_of_getElem? (hnodup : ks.Nodup) {i : ℕ} (hi : ks[i]? = some k) :
    H.deleteEach clock txnId principal ks k = keyEvent (clock i) txnId principal none :: H k := by
  induction ks generalizing H clock i with
  | nil => cases hi
  | cons k' ks ih =>
    obtain ⟨hnotin, hnodup⟩ := List.nodup_cons.1 hnodup
    rcases i with _ | i
    · rw [List.getElem?_cons_zero, Option.some.injEq] at hi
      rw [← hi, deleteEach, deleteEach_of_notMem hnotin, write_self]
    · rw [List.getElem?_cons_succ] at hi
      have hne : k ≠ k' := by
        rintro rfl
        exact hnotin (List.mem_of_getElem? hi)
      rw [deleteEach, ih hnodup hi, write_of_ne hne]

theorem Live.write_of_ne {k' : BusinessKey} {e : KeyEvent} (h : H.Live k) (hne : k ≠ k') :
    (H.write k' e).Live k := by
  obtain ⟨p, hp, hst⟩ := h
  exact ⟨p, by rwa [periodsOf_write_of_ne hne], hst⟩

end History

/-- The period a delete leaves: it ends no later than the delete. -/
theorem KeyPeriod.contains_endBy {H : History} {k : BusinessKey} {ev : KeyEvent} {q : KeyPeriod}
    (hq : q ∈ H.periodsOf k) (hlt : ∀ e ∈ H k, e.instant < ev.instant) {s : SystemTimeMicros} :
    Contains (KeyPeriod.endBy ev q) s ↔ Contains q s ∧ s < ev.instant := by
  rcases hst : q.stop with _ | u
  · have hstop : (KeyPeriod.endBy ev q).stop = some ev := by rw [KeyPeriod.endBy, hst]; rfl
    constructor
    · rintro ⟨hs, hu⟩
      exact ⟨⟨hs, fun u hu => by rw [hst] at hu; cases hu⟩, hu ev hstop⟩
    · rintro ⟨⟨hs, -⟩, hlt⟩
      refine ⟨hs, fun u hu => ?_⟩
      rw [hstop, Option.mem_some_iff] at hu
      exact hu ▸ hlt
  · have hstop : (KeyPeriod.endBy ev q).stop = some u := by rw [KeyPeriod.endBy, hst]; rfl
    -- the end it has is the instant of an earlier event
    have hu := hlt u ((exists_event_of_stop hq hst).resolve_left (by simp))
    constructor
    · rintro ⟨hs, h⟩
      have hsu := h u hstop
      refine ⟨⟨hs, fun u' hu' => ?_⟩, hsu.trans hu⟩
      rw [hst, Option.mem_some_iff] at hu'
      exact hu' ▸ hsu
    · rintro ⟨⟨hs, h⟩, -⟩
      refine ⟨hs, fun u' hu' => ?_⟩
      rw [hstop, Option.mem_some_iff] at hu'
      exact hu' ▸ h u hst

theorem KeyPeriod.resolved_endBy {H : History} (hH : H.WellFormed) {k : BusinessKey} {ev : KeyEvent}
    {q : KeyPeriod} (hq : q ∈ H.periodsOf k) : KeyPeriod.resolved k (KeyPeriod.endBy ev q) =
      (KeyPeriod.resolved k q).closeAt ⟨ev.instant, ev.author⟩ := by
  rcases hst : q.stop with _ | u
  · have hopen : (KeyPeriod.resolved k q).sysTo = systemTimeOpen := by
      rw [KeyPeriod.resolved, KeyPeriod.ending, hst]
      rfl
    rw [Version.closeAt, if_pos hopen]
    simp only [KeyPeriod.resolved, KeyPeriod.ending, KeyPeriod.endBy, hst]
    rfl
  · have hbelow := hH.below k u ((exists_event_of_stop hq hst).resolve_left (by simp))
    have hne : (KeyPeriod.resolved k q).sysTo ≠ systemTimeOpen := by
      rw [KeyPeriod.resolved_sysTo hst]
      exact hbelow.ne
    rw [Version.closeAt, if_neg hne]
    simp only [KeyPeriod.resolved, KeyPeriod.ending, KeyPeriod.endBy, hst]
    rfl

/-! ### Reads -/

namespace Stores

variable {t t' : Tiers} {sv sv' : List Version} {H H' : History} {k : BusinessKey}
  {s : SystemTimeMicros}

/-- A point read finds the period that contains the snapshot, and nothing at the sentinel. -/
theorem resolveLive_eq_some_iff_lt (h : Stores t sv H) {v : Version} :
    resolveLive t sv k s = some v ↔ s < systemTimeOpen ∧
      ∃ p ∈ H.periodsOf k, Contains p s ∧ KeyPeriod.resolved k p = v := by
  by_cases hs : s < systemTimeOpen
  · rw [h.resolveLive_eq_some_iff hs, and_iff_right hs]
  · refine iff_of_false (fun hv => ?_) fun hv => hs hv.1
    obtain ⟨raw, hraw, hk, hle, -, rfl, hlt⟩ := h.resolveLive_eq_some.1 hv
    obtain ⟨k', p, hp, rfl⟩ := (h.represents.holds raw).1 hraw
    rw [h.represents.stamp_eq hp] at hlt
    rcases hst : p.stop with _ | u
    · have hopen : (KeyPeriod.resolved k' p).sysTo = systemTimeOpen := by
        rw [KeyPeriod.resolved, KeyPeriod.ending, hst]
        rfl
      exact hs (hopen ▸ hlt)
    · rw [KeyPeriod.resolved_sysTo hst] at hlt
      have hu := (exists_event_of_stop hp hst).resolve_left (by simp)
      exact hs (hlt.trans (h.wellFormed.below k' u hu))

/-- Reads of a key depend on its events only. -/
theorem resolveLive_congr_key (h : Stores t sv H) (h' : Stores t' sv' H') (hk : H' k = H k) :
    resolveLive t' sv' k s = resolveLive t sv k s := by
  apply Option.ext
  intro v
  rw [h.resolveLive_eq_some_iff_lt, h'.resolveLive_eq_some_iff_lt, History.periodsOf, hk,
    History.periodsOf]

/-- Reads of a key that was deleted later than anything was written to it. -/
theorem resolveLive_deleted (h : Stores t sv H) (h' : Stores t' sv' H') {ev : KeyEvent}
    (hnone : ev.value = none) (hlt : ∀ e ∈ H k, e.instant < ev.instant) (hk : H' k = ev :: H k) :
    resolveLive t' sv' k s = if s < ev.instant then
      (resolveLive t sv k s).map fun v => v.closeAt ⟨ev.instant, ev.author⟩ else none := by
  have hperiods : H'.periodsOf k = (H.periodsOf k).map (KeyPeriod.endBy ev) := by
    have := History.periodsOf_write_self H k ev
    rwa [History.periodsOf, History.write_self, ← hk, History.newPeriod, hnone] at this
  apply Option.ext
  intro v
  rw [h'.resolveLive_eq_some_iff_lt, hperiods]
  simp only [List.mem_map, exists_exists_and_eq_and]
  split_ifs with hs
  · simp only [Option.map_eq_some_iff, h.resolveLive_eq_some_iff_lt]
    constructor
    · rintro ⟨hopen, q, hq, hc, rfl⟩
      exact ⟨_, ⟨hopen, q, hq, ((KeyPeriod.contains_endBy hq hlt).1 hc).1, rfl⟩,
        (KeyPeriod.resolved_endBy h.wellFormed hq).symm⟩
    · rintro ⟨_, ⟨hopen, q, hq, hc, rfl⟩, rfl⟩
      exact ⟨hopen, q, hq, (KeyPeriod.contains_endBy hq hlt).2 ⟨hc, hs⟩,
        KeyPeriod.resolved_endBy h.wellFormed hq⟩
  · refine iff_of_false ?_ (by simp)
    rintro ⟨-, q, hq, hc, -⟩
    exact hs ((KeyPeriod.contains_endBy hq hlt).1 hc).2

end Stores

/-! ### The keys to close -/

/-- A delete in the history ended a period, if those before did. -/
theorem Writes.stop_of_delete {H H' : History} {rs : List Redo} (hw : Writes H rs H')
    (hH : ∀ k, ∀ ev ∈ H k, ev.value = none → ∃ p ∈ H.periodsOf k, p.stop = some ev) :
    ∀ k, ∀ ev ∈ H' k, ev.value = none → ∃ p ∈ H'.periodsOf k, p.stop = some ev := by
  -- one event more, which if it is a delete ends an open period
  have hstep : ∀ {H : History} {k : BusinessKey} {e : KeyEvent},
      (∀ k, ∀ ev ∈ H k, ev.value = none → ∃ p ∈ H.periodsOf k, p.stop = some ev) →
      (e.value = none → ∃ p ∈ H.periodsOf k, p.stop = none) →
      ∀ k', ∀ ev ∈ H.write k e k', ev.value = none →
        ∃ p ∈ (H.write k e).periodsOf k', p.stop = some ev := by
    intro H k e hH he k' ev hev hval
    by_cases hk : k' = k
    · subst hk
      rw [History.write_self] at hev
      rcases List.mem_cons.1 hev with rfl | hev
      · obtain ⟨p, hp, hst⟩ := he hval
        refine ⟨KeyPeriod.endBy ev p, History.mem_periodsOf_write_self.2 (.inr ⟨p, hp, rfl⟩), ?_⟩
        rw [KeyPeriod.endBy, hst]
        rfl
      · obtain ⟨p, hp, hst⟩ := hH k' ev hev hval
        refine ⟨KeyPeriod.endBy e p, History.mem_periodsOf_write_self.2 (.inr ⟨p, hp, rfl⟩), ?_⟩
        rw [KeyPeriod.endBy, hst]
        rfl
    · rw [History.write_of_ne hk] at hev
      rw [History.periodsOf_write_of_ne hk]
      exact hH k' ev hev hval
  induction hw with
  | nil H => exact hH
  | insert _ ha _ _ _ ih => exact ih (hstep hH fun hval => by rw [ha] at hval; cases hval)
  | update _ _ ha _ _ _ _ ih => exact ih (hstep hH fun hval => by rw [ha] at hval; cases hval)
  | delete hp hlive _ _ _ _ ih => exact ih (hstep hH fun _ => ⟨_, hp, hlive⟩)

/-- Every entry of a redo set is stamped with the instant of an event. -/
theorem Writes.exists_event {H H' : History} {rs : List Redo} (hw : Writes H rs H') {r : Redo}
    (hr : r ∈ rs) : ∃ k, ∃ ev ∈ H' k, ev.instant = r.instant := by
  have hhead : ∀ {H H' : History} {k : BusinessKey} {e : KeyEvent} {rs : List Redo},
      Writes (H.write k e) rs H' → e ∈ H' k := by
    intro H H' k e rs hw
    exact hw.subset k e (by rw [History.write_self]; exact List.mem_cons_self)
  induction hw with
  | nil H => cases hr
  | insert _ _ _ _ rest ih =>
    rcases List.mem_cons.1 hr with rfl | hr
    · exact ⟨_, _, hhead rest, rfl⟩
    · exact ih hr
  | update _ _ _ _ _ _ rest ih =>
    rcases List.mem_cons.1 hr with rfl | hr
    · exact ⟨_, _, hhead rest, rfl⟩
    rcases List.mem_cons.1 hr with rfl | hr
    · exact ⟨_, _, hhead rest, rfl⟩
    · exact ih hr
  | delete _ _ _ _ _ rest ih =>
    rcases List.mem_cons.1 hr with rfl | hr
    · exact ⟨_, _, hhead rest, rfl⟩
    · exact ih hr

namespace Engine

variable {e e' : Engine} {H H' : History} {rs : List Redo} {at_ now : SystemTimeMicros}
  {k : BusinessKey}

/-- An instant past what is stored is past every event of the history. -/
theorem KnownBy.instant_le (hk : e.KnownBy now) (hs : Stores e.tiers e.sealedVersions H)
    (hw : Writes History.empty rs H) : ∀ k, ∀ ev ∈ H k, ev.instant ≤ now := by
  intro k ev hev
  rcases hval : ev.value with _ | a
  · -- a delete is the end of a period, which the index knows
    obtain ⟨p, hp, hst⟩ := hw.stop_of_delete (fun _ _ h => nomatch h) k ev hev hval
    have hend := hs.represents.ends k p hp
    rw [KeyPeriod.ending, hst, Option.map_some, ← ValidityIndex.getElem?_materialize hs.writeOnce]
      at hend
    exact hk.closed _ (OrdMap.mem_toList.2 hend)
  · -- another write begins one
    obtain ⟨p, hp, hstart, -, -⟩ : ∃ p ∈ H.periodsOf k, p.start = ev.instant ∧
        p.author = ev.author ∧ p.value = a := exists_mem_periods_of_event hev hval
    rw [← hstart, ← KeyPeriod.version_sysFrom k p]
    refine hk.opened _ (List.mem_append.2 ?_)
    have hholds := (hs.represents.holds (KeyPeriod.version k p)).2 ⟨k, p, hp, rfl⟩
    rwa [← Delta.mem_mergeStaged hs.delta_consistent] at hholds

theorem mem_residentKeys (hs : Stores e.tiers e.sealedVersions H) {p : KeyPeriod}
    (hp : p ∈ H.periodsOf k) : k ∈ e.residentKeys := by
  rw [residentKeys, KeyedMap.mem_values, KeyedMap.mem_ofList (fun _ _ _ _ h => h), List.mem_map]
  have hholds := (hs.represents.holds (KeyPeriod.version k p)).2 ⟨k, p, hp, rfl⟩
  rw [← Delta.mem_mergeStaged hs.delta_consistent] at hholds
  exact ⟨_, List.mem_append.2 hholds, rfl⟩

/-- The keys to close are those whose version at `now` was opened by the drop. -/
theorem mem_staleKeys (hs : Stores e.tiers e.sealedVersions H) : k ∈ e.staleKeys at_ now ↔
    ∃ v, e.asOf k now = some v ∧ v.sysFrom ≤ at_ := by
  rw [staleKeys, List.mem_filter, Option.any_eq_true]
  simp only [decide_eq_true_eq]
  refine and_iff_right_of_imp ?_
  rintro ⟨v, hv, -⟩
  rw [asOf_eq, hs.resolveLive_eq_some_iff_lt] at hv
  obtain ⟨-, p, hp, -, -⟩ := hv
  exact mem_residentKeys hs hp

theorem staleKeys_pairwise : (e.staleKeys at_ now).Pairwise (· < ·) :=
  (KeyedMap.values_pairwise _).filter _

theorem staleKeys_nodup : (e.staleKeys at_ now).Nodup :=
  staleKeys_pairwise.imp fun h => h.ne

/-- Read past everything stored, they are those with an open period from before the drop. -/
theorem mem_staleKeys_iff_period (hs : Stores e.tiers e.sealedVersions H)
    (hle : ∀ k, ∀ ev ∈ H k, ev.instant ≤ now) (hnow : now < systemTimeOpen) :
    k ∈ e.staleKeys at_ now ↔ ∃ p ∈ H.periodsOf k, p.stop = none ∧ p.start ≤ at_ := by
  rw [mem_staleKeys hs]
  simp only [asOf_eq, hs.resolveLive_eq_some_iff_lt, hnow, true_and]
  constructor
  · rintro ⟨_, ⟨p, hp, hc, rfl⟩, hat⟩
    exact ⟨p, hp, (History.contains_iff (hle k) hp).1 hc, by simpa using hat⟩
  · rintro ⟨p, hp, hst, hat⟩
    exact ⟨_, ⟨p, hp, (History.contains_iff (hle k) hp).2 hst, rfl⟩, by simpa using hat⟩

variable {clock : ℕ → SystemTimeMicros} {txnId : TxnId} {principal : Bytes}

/-- After the first `m` of the keys were deleted the others are left. -/
theorem staleKeys_deleteEach {now' : SystemTimeMicros} (hs : Stores e.tiers e.sealedVersions H)
    (hle : ∀ k, ∀ ev ∈ H k, ev.instant ≤ now) (hnow : now < systemTimeOpen) {m : ℕ}
    (hs' : Stores e'.tiers e'.sealedVersions
      (H.deleteEach clock txnId principal ((e.staleKeys at_ now).take m)))
    (hle' : ∀ k, ∀ ev ∈ H.deleteEach clock txnId principal ((e.staleKeys at_ now).take m) k,
      ev.instant ≤ now') (hnow' : now' < systemTimeOpen) :
    e'.staleKeys at_ now' = (e.staleKeys at_ now).drop m := by
  have hnodup : (e.staleKeys at_ now).Nodup := staleKeys_nodup
  refine staleKeys_pairwise.eq_of_mem_iff (staleKeys_pairwise.drop) fun k => ?_
  rw [mem_staleKeys_iff_period hs' hle' hnow']
  by_cases hk : k ∈ (e.staleKeys at_ now).take m
  · -- a key that was deleted has no open period
    obtain ⟨i, hi⟩ := List.getElem?_of_mem hk
    have hev : H.deleteEach clock txnId principal ((e.staleKeys at_ now).take m) k =
        keyEvent (clock i) txnId principal none :: H k :=
      History.deleteEach_of_getElem? (hnodup.sublist (List.take_sublist m _)) hi
    refine iff_of_false ?_ fun hdrop => List.disjoint_take_drop hnodup le_rfl hk hdrop
    rintro ⟨p, hp, hst, -⟩
    have hperiods := History.periodsOf_write_self H k (keyEvent (clock i) txnId principal none)
    rw [History.periodsOf, History.write_self, ← hev] at hperiods
    rw [History.periodsOf, hperiods] at hp
    obtain ⟨q, -, rfl⟩ := List.mem_map.1 hp
    rw [KeyPeriod.endBy] at hst
    exact absurd hst (by cases q.stop <;> simp)
  · rw [History.periodsOf, History.deleteEach_of_notMem hk, ← History.periodsOf,
      ← mem_staleKeys_iff_period hs hle hnow]
    refine ⟨fun hmem => ?_, List.mem_of_mem_drop⟩
    rw [← List.take_append_drop m (e.staleKeys at_ now)] at hmem
    exact (List.mem_append.1 hmem).resolve_left hk

end Engine

/-! ### The deletes -/

/-- A reading that the writer refuses is behind its last commit, or at the sentinel. -/
theorem SysTimeWriter.nextCommitTs_refused {w : SysTimeWriter} {now : SystemTimeMicros}
    (h : ¬ ((∀ prev ∈ w.lastCommit, prev ≤ now) ∧ now < systemTimeOpen)) :
    ∃ err, w.nextCommitTs now = (w, .error err) ∧
      (err = .clockRegressed ∨ err = .timeExhausted) := by
  rw [nextCommitTs]
  split_ifs with hreg hopen
  · exact ⟨_, rfl, .inl rfl⟩
  · exact ⟨_, rfl, .inr rfl⟩
  · refine absurd ⟨fun prev hprev => ?_, not_le.1 hopen⟩ h
    rw [Option.mem_def.1 hprev] at hreg
    simpa using hreg

/-- The record of a delete is logged, or the log says why not. -/
theorem appendGroupRecord_retract (w : Wal) (c : Close) :
    (∃ w' err, appendGroupRecord w none [.retract c] = (w', .error err) ∧ err.OfClockOrLog ∧
        w.Extends [] w') ∨
      ∃ w', appendGroupRecord w none [.retract c] = (w', .ok ()) ∧
        w.Extends [.whole none [.retract c]] w' ∧ ∀ r ∈ [Redo.retract c], r.Encodable := by
  rcases appendGroupRecord_cases w none [.retract c] with ⟨w', err, hlog, hext⟩ | hlog
  · refine .inl ⟨w', err, hlog, ?_, hext⟩
    rcases hfits : c.checkEncodable with ferr | u
    · simp only [appendGroupRecord, encodeRedo, Redo.encodedLen, hfits] at hlog
      cases hlog
      trivial
    · simp only [appendGroupRecord, encodeRedo, Redo.encodedLen, hfits, Option.isSome_none,
        Bool.false_eq_true, if_false] at hlog
      rcases happ : w.append (.whole none [.retract c]) (1 + c.encodedSize + 0) with ⟨w₁, werr | u⟩
      · rw [happ] at hlog
        cases hlog
        trivial
      · rw [happ] at hlog
        cases hlog
  · exact .inr hlog

/-- **One delete** of a live key ends its period and adds a record to the log, unless the clock or
the log refuses it. -/
theorem Engine.write_delete {e : Engine} {H : History} (hs : Stores e.tiers e.sealedVersions H)
    (hidle : e.writer.group = none) {k : BusinessKey} {t : SystemTimeMicros} (hlive : H.Live k)
    (hclock : e.writer.writer.Bounds H t) (txnId : TxnId) (principal : Bytes) :
    (∃ e' err, e.write ⟨t, k, txnId, principal, .delete⟩ = (e', .error err) ∧ err.OfClockOrLog ∧
        e.Wrote H e' H ∧ e'.writer.wal.records = e.writer.wal.records) ∨
      ∃ e', e.write ⟨t, k, txnId, principal, .delete⟩ = (e', .ok t) ∧
        e.Wrote H e' (H.write k (keyEvent t txnId principal none)) ∧
        e'.writer.wal.records.length = e.writer.wal.records.length + 1 ∧
        e'.writer.writer.lastCommit = some t ∧ ∀ prev ∈ e.writer.writer.lastCommit, prev ≤ t := by
  by_cases hts : (∀ prev ∈ e.writer.writer.lastCommit, prev ≤ t) ∧ t < systemTimeOpen
  · obtain ⟨hprev, hnow⟩ := hts
    obtain ⟨p, hp, hst⟩ := hlive
    have hle := hclock hprev
    have hstage : e.writer.stage e.tiers e.sealedVersions ⟨t, k, txnId, principal, .delete⟩ =
        (⟨some t⟩,
          .ok (t, [.retract (KeyPeriod.closeBy k p (keyEvent t txnId principal none))])) := by
      simp only [DmlWriter.stage, (hs.stageDelete hprev hnow (hle k)).2 p hp hst]
      rfl
    have hwf := hs.wellFormed.write_keyEvent txnId principal (a := none) (hle k) hnow
      fun _ _ _ _ _ y hy => (Option.not_mem_none y hy).elim
    simp only [Engine.write, DmlWriter.write, hstage, DmlWriter.logAndApply, hidle]
    rcases appendGroupRecord_retract e.writer.wal
        (KeyPeriod.closeBy k p (keyEvent t txnId principal none)) with
      ⟨w', err, hlog, herr, hext⟩ | ⟨w', hlog, hext, hfit⟩
    · -- the record does not reach the log
      refine .inl ⟨_, err, by simp only [hlog]; rfl, herr, ?_, hext.same⟩
      exact .refused rfl hext (Tiers.Same.refl _) (.inr ⟨t, rfl, hle⟩)
    · have hwr := (StagedAs.delete hp hst rfl).writes hfit hwf
      obtain ⟨t', ht', hs', hst'⟩ := hs.applyRedos hwr true
      refine .inr ⟨_, by simp only [hlog, apply, ht']; rfl, ?_, ?_, rfl, hprev⟩
      · exact .logged rfl hext hwr hs' hst' ⟨t, rfl, fun k' ev hev => by
          exact History.le_of_mem_write (w := ⟨t, k, txnId, principal, .delete⟩) hle k' ev hev⟩
      · rw [hext.records, List.length_append]
        rfl
  · obtain ⟨err, href, herr⟩ := SysTimeWriter.nextCommitTs_refused hts
    have hstage : e.writer.stage e.tiers e.sealedVersions ⟨t, k, txnId, principal, .delete⟩ =
        (e.writer.writer, .error (.sysTime err)) := by
      simp only [DmlWriter.stage, SysTimeWriter.stageDelete, href, Except.mapError]
    left
    refine ⟨_, .resolve (.sysTime err), by simp only [Engine.write, DmlWriter.write, hstage],
      ?_, .refused hidle (.refl _) (Tiers.Same.refl _) (.inl rfl), rfl⟩
    rcases herr with rfl | rfl <;> trivial

namespace Host

variable {validTime : Bool} {h : Host} {past : List Host} {Hs : ℕ → History}
  {clock : ℕ → SystemTimeMicros} {txnId : TxnId} {principal : Bytes} {ks : List BusinessKey}

/-- The host after keys were deleted one by one. -/
def deleteEach (h : Host) (clock : ℕ → SystemTimeMicros) (txnId : TxnId) (principal : Bytes)
    (ks : List BusinessKey) : Host :=
  { h with engine := (h.engine.deleteEach clock txnId principal ks).1 }

/-- The host after the call. -/
def closeDroppedEra (h : Host) (clock : ℕ → SystemTimeMicros) (at_ now : SystemTimeMicros)
    (txnId : TxnId) (principal : Bytes) : Host :=
  { h with engine := (h.engine.closeDroppedEra clock at_ now txnId principal).1 }

theorem closeDroppedEra_eq (h : Host) (clock : ℕ → SystemTimeMicros) (at_ now : SystemTimeMicros)
    (txnId : TxnId) (principal : Bytes) : h.closeDroppedEra clock at_ now txnId principal =
      h.deleteEach clock txnId principal (h.engine.staleKeys at_ now) := by
  rw [closeDroppedEra, deleteEach, Engine.closeDroppedEra]
  rcases h.engine.deleteEach clock txnId principal (h.engine.staleKeys at_ now)
    with ⟨e, err | u⟩ <;>
    rfl

/-- A call of the write path adds no torn frame. -/
theorem Clear.wrote (hclear : h.Clear .append) {e : Engine} {H H' : History}
    (hw : h.engine.Wrote H e H') : Host.Clear { h with engine := e } .append := by
  intro q hq
  cases hw with
  | refused _ hwal _ _ =>
    simp only [Host.log, hwal.same]
    exact hclear q hq
  | logged _ hwal _ _ _ _ =>
    simp only [Host.log, hwal.records, List.drop_append, List.mem_append, not_or]
    refine ⟨hclear q hq, fun hmem => ?_⟩
    cases List.mem_singleton.1 (List.mem_of_mem_drop hmem)

/-- The callers' promises hold of a delete, if the clock of a new process is past the history. -/
theorem Sane.promised_delete (hs : h.Sane Hs) {k : BusinessKey} {t : SystemTimeMicros}
    (hclock : h.engine.writer.writer.lastCommit = none →
      ∀ k, ∀ ev ∈ Hs h.log.length k, ev.instant ≤ t) :
    h.Promised [⟨t, k, txnId, principal, .delete⟩] where
  contract := List.pairwise_singleton ..
  seq_lt := by
    intro w hw _ _ _ _ _ _ b hb
    rw [List.mem_singleton.1 hw] at hb
    cases hb
  clock := by
    intro hlast w hw r hr redo hredo
    have hwr := hs.safe.chained.writes_empty le_rfl
    rw [List.take_length] at hwr
    obtain ⟨k', ev, hev, hinst⟩ := hwr.exists_event (List.mem_flatMap.2 ⟨r, hr, hredo⟩)
    rw [List.mem_singleton.1 hw, ← hinst]
    exact hclock hlast k' ev hev

/-- `h'` is `h` after the first `m` of the keys were deleted and logged. -/
structure Deleted (validTime : Bool) (h : Host) (Hs : ℕ → History) (clock : ℕ → SystemTimeMicros)
    (txnId : TxnId) (principal : Bytes) (ks : List BusinessKey) (m : ℕ) (h' : Host)
    (Hs' : ℕ → History) : Prop where
  sane : h'.Sane Hs'
  clear : h'.Clear .append
  run : ∃ past, Run validTime Clear (h' :: past)
  old : ∀ n ≤ h.log.length, Hs' n = Hs n
  new : ∀ i ≤ m, Hs' (h.log.length + i) =
    (Hs h.log.length).deleteEach clock txnId principal (ks.take i)
  length : h'.log.length = h.log.length + m
  ascending : ∀ i < m, clock 0 ≤ clock i
  stamped : ∀ i < m, ∀ prev ∈ h.engine.writer.writer.lastCommit, prev ≤ clock i

/-- **The deletes of live keys** are made in order, as far as the clock and the log take them. -/
theorem Sane.deleteEach (hrun : Run validTime Clear (h :: past)) (hs : h.Sane Hs)
    (hclear : h.Clear .append) (hlive : ∀ k ∈ ks, (Hs h.log.length).Live k) (hnodup : ks.Nodup)
    (hclock : h.engine.writer.writer.lastCommit = none →
      ∀ k, ∀ ev ∈ Hs h.log.length k, ev.instant ≤ clock 0) :
    ∃ m Hs', Deleted validTime h Hs clock txnId principal ks m
        (h.deleteEach clock txnId principal ks) Hs' ∧
      ((m = ks.length ∧ (h.engine.deleteEach clock txnId principal ks).2 = .ok ()) ∨
        (m < ks.length ∧ ∃ err, (h.engine.deleteEach clock txnId principal ks).2 = .error err ∧
          err.OfClockOrLog)) := by
  induction ks generalizing h past Hs clock with
  | nil =>
    refine ⟨0, Hs, ⟨hs, hclear, ⟨past, hrun⟩, fun _ _ => rfl, ?_, rfl, ?_, ?_⟩, .inl ⟨rfl, rfl⟩⟩
    · intro i hi
      rw [Nat.le_zero.1 hi]
      rfl
    · exact fun i hi => absurd hi (Nat.not_lt_zero i)
    · exact fun i hi => absurd hi (Nat.not_lt_zero i)
  | cons k ks ih =>
    obtain ⟨hnotin, hnodup⟩ := List.nodup_cons.1 hnodup
    have hprom : h.Promised [⟨clock 0, k, txnId, principal, .delete⟩] := hs.promised_delete hclock
    have hrun' := hrun.write hclear hprom
    rcases Engine.write_delete hs.stores hs.idle (hlive k List.mem_cons_self)
        (hs.bounds hprom _ (List.mem_singleton.2 rfl)) txnId principal with
      ⟨e, err, hw, herr, hwrote, hlog⟩ | ⟨e, hw, hwrote, hlog, hlast, hprev⟩
    · -- the first delete is refused, and nothing more is tried
      obtain ⟨Hs', hs', hold, -, -⟩ := hs.wrote hclear hwrote
      have heng : h.engine.deleteEach clock txnId principal (k :: ks) = (e, .error err) := by
        rw [Engine.deleteEach, hw]
      have hhost : h.deleteEach clock txnId principal (k :: ks) = { h with engine := e } := by
        rw [Host.deleteEach, heng]
      rw [Host.write, hw] at hrun'
      rw [heng, hhost]
      refine ⟨0, Hs', ⟨hs', hclear.wrote hwrote, ⟨_, hrun'⟩, hold, ?_,
        congrArg List.length hlog, ?_, ?_⟩, .inr ⟨Nat.succ_pos _, err, rfl, herr⟩⟩
      · intro i hi
        rw [Nat.le_zero.1 hi]
        exact hold _ le_rfl
      · exact fun i hi => absurd hi (Nat.not_lt_zero i)
      · exact fun i hi => absurd hi (Nat.not_lt_zero i)
    · obtain ⟨Hs₁, hs₁, hold₁, hend, -⟩ := hs.wrote hclear hwrote
      generalize hg : ({ h with engine := e } : Host) = g at hs₁
      have hglog : g.log.length = h.log.length + 1 := by
        rw [← hg]
        exact hlog
      have hgend : Hs₁ g.log.length =
          (Hs h.log.length).write k (keyEvent (clock 0) txnId principal none) := by
        rw [← hg]
        exact hend
      have hglast : g.engine.writer.writer.lastCommit = some (clock 0) := by
        rw [← hg]
        exact hlast
      rw [Host.write, hw] at hrun'
      have hgrun : Run validTime Clear (g :: h :: past) := by rwa [← hg]
      have hgclear : g.Clear .append := by
        rw [← hg]
        exact hclear.wrote hwrote
      have hglive : ∀ k' ∈ ks, (Hs₁ g.log.length).Live k' := by
        intro k' hk'
        rw [hgend]
        refine (hlive k' (List.mem_cons_of_mem _ hk')).write_of_ne ?_
        rintro rfl
        exact hnotin hk'
      have hrest : g.engine.writer.writer.lastCommit = none →
          ∀ k, ∀ ev ∈ Hs₁ g.log.length k, ev.instant ≤ (fun i => clock (i + 1)) 0 := by
        intro hnone
        rw [hglast] at hnone
        cases hnone
      obtain ⟨m, Hs', hdel, hres⟩ : ∃ m Hs', Deleted validTime g Hs₁ (fun i => clock (i + 1)) txnId
          principal ks m (g.deleteEach (fun i => clock (i + 1)) txnId principal ks) Hs' ∧ _ :=
        ih hgrun hs₁ hgclear hglive hnodup hrest
      have heng : h.engine.deleteEach clock txnId principal (k :: ks) =
          g.engine.deleteEach (fun i => clock (i + 1)) txnId principal ks := by
        rw [Engine.deleteEach, hw, ← hg]
      have hhost : h.deleteEach clock txnId principal (k :: ks) =
          g.deleteEach (fun i => clock (i + 1)) txnId principal ks := by
        rw [Host.deleteEach, heng, Host.deleteEach, ← hg]
      rw [heng, hhost]
      refine ⟨m + 1, Hs', ⟨hdel.sane, hdel.clear, hdel.run, ?_, ?_, ?_, ?_, ?_⟩, ?_⟩
      · intro n hn
        rw [hdel.old n (by omega), hold₁ n hn]
      · intro i hi
        rcases i with _ | i
        · rw [Nat.add_zero, hdel.old _ (by omega), hold₁ _ le_rfl]
          rfl
        · have hnew := hdel.new i (by omega)
          rw [hgend, hglog] at hnew
          rw [Nat.add_right_comm, Nat.add_assoc] at hnew
          exact hnew
      · rw [hdel.length, hglog]
        omega
      · intro i hi
        rcases i with _ | i
        · exact le_rfl
        · exact hdel.stamped i (by omega) _ hglast
      · intro i hi prev hmem
        rcases i with _ | i
        · exact hprev prev hmem
        · exact (hprev prev hmem).trans (hdel.stamped i (by omega) _ hglast)
      · rcases hres with ⟨rfl, hok⟩ | ⟨hlt, herr⟩
        · exact .inl ⟨rfl, hok⟩
        · exact .inr ⟨Nat.succ_lt_succ hlt, herr⟩

/-- A log that is left of the deletes, and has what was logged before, has those of the first. -/
theorem Deleted.survivors (hs : h.Sane Hs) {m n : ℕ} {h' : Host} {Hs' : ℕ → History}
    {log : List WalRecord} (hdel : Deleted validTime h Hs clock txnId principal ks m h' Hs')
    (hn : n ≤ h'.log.length) (hlog : log = h'.log.take n ∨ log = h'.log.take n ++ [.torn])
    (hkept : h.log <+: log) :
    ∃ i ≤ m, Hs' n = (Hs h.log.length).deleteEach clock txnId principal (ks.take i) := by
  rw [hdel.length] at hn
  rcases Nat.lt_or_ge n h.log.length with hlt | hge
  · -- the last record from before the call is a torn frame, which wrote nothing
    have hlen := hkept.length_le
    have hfull : (h'.log.take n).length = n := by
      rw [List.length_take, hdel.length]
      exact Nat.min_eq_left hn
    rcases hlog with rfl | rfl
    · rw [hfull] at hlen
      exact absurd hlen (not_le.2 hlt)
    rw [List.length_append, hfull] at hlen
    have hsize : h.log.length = n + 1 := le_antisymm hlen hlt
    have htorn : h.log = h'.log.take n ++ [.torn] :=
      hkept.eq_of_length (by rw [List.length_append, hfull, hsize]; rfl)
    have hget : h.log[n]? = some .torn := by
      rw [htorn, List.getElem?_append_right hfull.le, hfull, Nat.sub_self]
      rfl
    have hstep := hs.safe.chained.step n .torn hget
    rw [← hsize] at hstep
    refine ⟨0, Nat.zero_le _, ?_⟩
    rw [hdel.old n hlt.le, List.take_zero, History.deleteEach, Writes.of_nil hstep]
  · obtain ⟨i, rfl⟩ := Nat.exists_eq_add_of_le hge
    exact ⟨i, by omega, hdel.new i (by omega)⟩

end Host

open Host

namespace Engine

variable {e e' : Engine} {H : History} {clock : ℕ → SystemTimeMicros} {txnId : TxnId}
  {principal : Bytes} {ks : List BusinessKey} {at_ now : SystemTimeMicros}

/-- What an engine answers that stores the history after the first `m` deletes. -/
theorem closedFirst (hs : Stores e.tiers e.sealedVersions H) (hnodup : ks.Nodup) {m : ℕ}
    (hle : ∀ k, ∀ ev ∈ H k, ev.instant ≤ now) (hclock : ∀ i < m, now < clock i)
    (hs' : Stores e'.tiers e'.sealedVersions (H.deleteEach clock txnId principal (ks.take m))) :
    e.ClosedFirst e' clock txnId principal ks m where
  closed := by
    intro i hi k hk s
    have hget : (ks.take m)[i]? = some k := by rw [List.getElem?_take_of_lt hi, hk]
    have hev : H.deleteEach clock txnId principal (ks.take m) k =
        keyEvent (clock i) txnId principal none :: H k :=
      History.deleteEach_of_getElem? (hnodup.sublist (List.take_sublist m ks)) hget
    rw [asOf_eq, asOf_eq]
    exact hs.resolveLive_deleted hs' rfl (fun ev h => (hle k ev h).trans_lt (hclock i hi)) hev
  kept := by
    intro k hk s
    rw [asOf_eq, asOf_eq]
    exact hs.resolveLive_congr_key hs' (History.deleteEach_of_notMem hk)

/-- The call closes all it lists, or fails as the deletes do. -/
theorem closeDroppedEra_result {m : ℕ}
    (h : (m = (e.staleKeys at_ now).length ∧
        (e.deleteEach clock txnId principal (e.staleKeys at_ now)).2 = .ok ()) ∨
      (m < (e.staleKeys at_ now).length ∧
        ∃ err, (e.deleteEach clock txnId principal (e.staleKeys at_ now)).2 = .error err ∧
          err.OfClockOrLog)) :
    (m = (e.staleKeys at_ now).length ∧
        (e.closeDroppedEra clock at_ now txnId principal).2 = .ok m) ∨
      (m < (e.staleKeys at_ now).length ∧
        ∃ err, (e.closeDroppedEra clock at_ now txnId principal).2 = .error err ∧
          err.OfClockOrLog) := by
  rw [closeDroppedEra]
  generalize e.deleteEach clock txnId principal (e.staleKeys at_ now) = r at h ⊢
  rcases r with ⟨e', err | u⟩
  · rcases h with ⟨-, hok⟩ | ⟨hlt, err', herr, hof⟩
    · cases hok
    · cases herr
      exact .inr ⟨hlt, err, rfl, hof⟩
  · rcases h with ⟨hm, -⟩ | ⟨-, err', herr, -⟩
    · exact .inl ⟨hm, congrArg Except.ok hm.symm⟩
    · cases herr

theorem closeDroppedEra_nil (h : e.staleKeys at_ now = []) :
    e.closeDroppedEra clock at_ now txnId principal = (e, .ok 0) := by
  rw [closeDroppedEra, h]
  rfl

end Engine

/-! ### The call in a run -/

namespace Host

/-- Clock readings from 20 on. -/
def from20 (i : ℕ) : SystemTimeMicros := 20 + i

/-- The row is deleted, at instant 20. -/
def deletedRow : Host := oneRow.write ⟨20, [1], 2, [], .delete⟩

theorem run_deletedRow : Run false Clear [deletedRow, oneRow, Host.fresh false [] []] := by
  refine .write (run_oneRow (by decide)) (by decide) ⟨List.pairwise_singleton .., ?_,
    fun hlast => ?_⟩
  · intro w hw _ _ _ _ _ _ b hb
    rw [List.mem_singleton.1 hw] at hb
    cases hb
  · have hsome : oneRow.engine.writer.writer.lastCommit = some 10 := by decide
    rw [hsome] at hlast
    cases hlast

/-- Clock readings from 30 on. -/
def from30 (i : ℕ) : SystemTimeMicros := 30 + i

end Host

end SteleDb
