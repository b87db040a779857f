import SteleDb.Lib.Intervals
import SteleDb.Lib.Timeline
import SteleDb.Storage.Merge

/-!
# A table as a set of histories

The abstract view of a table: for every key the timeline of the writes it has seen.  What the
tiers store for it, versions without an end and ends filed elsewhere, is related to it by
`Represents`: the versions held are those of the timeline's periods, and the index answers for a
version exactly the end of its period.

* `Represents.resolves_iff` : a read at `s` finds the version of the period that contains `s`;
* `mem_live` : a read of part of the versions finds those whose period contains the snapshot;
* `Represents.write` : the one way a represented table changes: a write of a key appends an event,
  stores the version it asserts and ends the version that was live.
-/

namespace SteleDb

open Timeline

/-- A write of one key: when, by whom, and the sequence number and payload it asserts (`none`:
a delete). -/
abbrev KeyEvent := Event SystemTimeMicros Provenance (Seq × Option Bytes)

/-- A period of one key. -/
abbrev KeyPeriod := Period SystemTimeMicros Provenance (Seq × Option Bytes)

/-- The writes of every key, newest first. -/
abbrev History := BusinessKey → List KeyEvent

/-- Chain position of a period's version. -/
def KeyPeriod.pos (p : KeyPeriod) : ChainPos := toLex (p.start, p.value.1)

/-- The version a period asserts, as it is stored. -/
def KeyPeriod.version (k : BusinessKey) (p : KeyPeriod) : Version :=
  Version.mkOpen k p.start p.value.1 p.author p.value.2

/-- The end of a period, as the index stores it. -/
def KeyPeriod.ending (p : KeyPeriod) : Option ClosedInterval :=
  p.stop.map fun u => ⟨u.instant, u.author⟩

/-- The version a read of the period returns. -/
def KeyPeriod.resolved (k : BusinessKey) (p : KeyPeriod) : Version :=
  (KeyPeriod.version k p).stamp p.ending

@[simp] theorem KeyPeriod.version_pos (k : BusinessKey) (p : KeyPeriod) :
    (KeyPeriod.version k p).pos = p.pos := rfl

@[simp] theorem KeyPeriod.version_id (k : BusinessKey) (p : KeyPeriod) :
    (KeyPeriod.version k p).id = toLex (k, p.pos) := rfl

@[simp] theorem KeyPeriod.version_businessKey (k : BusinessKey) (p : KeyPeriod) :
    (KeyPeriod.version k p).businessKey = k := rfl

@[simp] theorem KeyPeriod.version_sysFrom (k : BusinessKey) (p : KeyPeriod) :
    (KeyPeriod.version k p).sysFrom = p.start := rfl

@[simp] theorem KeyPeriod.resolved_businessKey (k : BusinessKey) (p : KeyPeriod) :
    (KeyPeriod.resolved k p).businessKey = k := by simp [KeyPeriod.resolved]

@[simp] theorem KeyPeriod.resolved_sysFrom (k : BusinessKey) (p : KeyPeriod) :
    (KeyPeriod.resolved k p).sysFrom = p.start := by simp [KeyPeriod.resolved]

@[simp] theorem KeyPeriod.resolved_pos (k : BusinessKey) (p : KeyPeriod) :
    (KeyPeriod.resolved k p).pos = KeyPeriod.pos p := by simp [KeyPeriod.resolved]

theorem KeyPeriod.resolved_sysTo {k : BusinessKey} {p : KeyPeriod} {u : KeyEvent}
    (hu : u ∈ p.stop) : (KeyPeriod.resolved k p).sysTo = u.instant := by
  rw [KeyPeriod.resolved, KeyPeriod.ending, Option.mem_def.1 hu]
  rfl

namespace History

/-- The periods of a key, newest first. -/
def periodsOf (H : History) (k : BusinessKey) : List KeyPeriod := periods none (H k)

/-- Append a write of `k`. -/
def write (H : History) (k : BusinessKey) (e : KeyEvent) : History :=
  Function.update H k (e :: H k)

@[simp] theorem write_self (H : History) (k : BusinessKey) (e : KeyEvent) :
    H.write k e k = e :: H k := Function.update_self ..

theorem write_of_ne {k k' : BusinessKey} (h : k' ≠ k) (H : History) (e : KeyEvent) :
    H.write k e k' = H k' := Function.update_of_ne h ..

/-- Later writes carry later instants, later versions of a key carry greater positions, and no
instant reaches the sentinel. -/
structure WellFormed (H : History) : Prop where
  ordered : ∀ k, Ordered (H k)
  increasing : ∀ k, (H k).Pairwise fun newer older => ∀ a ∈ newer.value, ∀ b ∈ older.value,
    (toLex (older.instant, b.1) : ChainPos) < toLex (newer.instant, a.1)
  below : ∀ k, ∀ e ∈ H k, e.instant < systemTimeOpen

/-- The table before any write. -/
def empty : History := fun _ => []

theorem wellFormed_empty : empty.WellFormed :=
  ⟨fun _ => List.Pairwise.nil, fun _ => List.Pairwise.nil, fun _ _ h => nomatch h⟩

theorem WellFormed.write {H : History} (hH : H.WellFormed) {k : BusinessKey} {e : KeyEvent}
    (hle : ∀ e' ∈ H k, e'.instant ≤ e.instant) (hlt : e.instant < systemTimeOpen)
    (hpos : ∀ a ∈ e.value, ∀ e' ∈ H k, ∀ b ∈ e'.value,
      (toLex (e'.instant, b.1) : ChainPos) < toLex (e.instant, a.1)) :
    (H.write k e).WellFormed := by
  refine ⟨fun k' => ?_, fun k' => ?_, fun k' => ?_⟩ <;> by_cases hk : k' = k
  · subst hk; rw [write_self]; exact List.pairwise_cons.2 ⟨hle, hH.ordered k'⟩
  · rw [write_of_ne hk]; exact hH.ordered k'
  · subst hk; rw [write_self]
    exact List.pairwise_cons.2 ⟨fun e' he' a ha b hb => hpos a ha e' he' b hb, hH.increasing k'⟩
  · rw [write_of_ne hk]; exact hH.increasing k'
  · subst hk; rw [write_self]
    intro e' he'
    rcases List.mem_cons.1 he' with rfl | he'
    · exact hlt
    · exact hH.below k' e' he'
  · rw [write_of_ne hk]; exact hH.below k'

/-- The positions of a key's periods decrease from newer to older. -/
theorem periods_increasing {h : List KeyEvent}
    (hinc : h.Pairwise fun newer older => ∀ a ∈ newer.value, ∀ b ∈ older.value,
      (toLex (older.instant, b.1) : ChainPos) < toLex (newer.instant, a.1))
    (stop : Option KeyEvent) :
    (periods stop h).Pairwise fun newer older => KeyPeriod.pos older < KeyPeriod.pos newer := by
  induction h generalizing stop with
  | nil => exact List.Pairwise.nil
  | cons e h ih =>
    obtain ⟨he, hh⟩ := List.pairwise_cons.1 hinc
    cases hv : e.value with
    | some a =>
      rw [periods_cons_some hv]
      refine List.pairwise_cons.2 ⟨fun p hp => ?_, ih hh _⟩
      obtain ⟨e', he', hs, -, hval⟩ := exists_event_of_mem_periods hp
      have := he e' he' a hv p.value hval
      rwa [hs] at this
    | none => rw [periods_cons_none hv]; exact ih hh _

/-- Two periods of a key are equal, or the one of greater position begins after the other has
ended. -/
theorem WellFormed.periods_trichotomy {H : History} (hH : H.WellFormed) {k : BusinessKey}
    {p q : KeyPeriod} (hp : p ∈ H.periodsOf k) (hq : q ∈ H.periodsOf k) :
    p = q ∨ (KeyPeriod.pos p < KeyPeriod.pos q ∧ ∃ u ∈ p.stop, u.instant ≤ q.start) ∨
      (KeyPeriod.pos q < KeyPeriod.pos p ∧ ∃ u ∈ q.stop, u.instant ≤ p.start) := by
  have hpair := (periods_increasing (hH.increasing k) none).and
    (periods_disjoint (hH.ordered k) none)
  let R (a b : KeyPeriod) : Prop :=
    a = b ∨ (KeyPeriod.pos a < KeyPeriod.pos b ∧ ∃ u ∈ a.stop, u.instant ≤ b.start) ∨
      (KeyPeriod.pos b < KeyPeriod.pos a ∧ ∃ u ∈ b.stop, u.instant ≤ a.start)
  have hR : (H.periodsOf k).Pairwise R := hpair.imp fun h => .inr (.inr h)
  have hR' : (H.periodsOf k).Pairwise (flip R) := hpair.imp fun h => .inr (.inl h)
  exact hR.forall_of_forall_of_flip (fun a _ => .inl rfl) hR' hp hq

theorem WellFormed.eq_of_pos_eq {H : History} (hH : H.WellFormed) {k : BusinessKey}
    {p q : KeyPeriod} (hp : p ∈ H.periodsOf k) (hq : q ∈ H.periodsOf k)
    (h : KeyPeriod.pos p = KeyPeriod.pos q) : p = q := by
  rcases hH.periods_trichotomy hp hq with h' | ⟨h', -⟩ | ⟨h', -⟩
  · exact h'
  · exact absurd h h'.ne
  · exact absurd h.symm h'.ne

end History

/-- The versions `P` and the ends `f` store the histories `H`. -/
structure Represents (P : Version → Prop) (f : VersionId → Option ClosedInterval)
    (H : History) : Prop where
  /-- The versions are those of the periods. -/
  holds : ∀ v, P v ↔ ∃ k, ∃ p ∈ H.periodsOf k, KeyPeriod.version k p = v
  /-- The index knows the end of every period. -/
  ends : ∀ k, ∀ p ∈ H.periodsOf k, f (toLex (k, KeyPeriod.pos p)) = KeyPeriod.ending p
  /-- The index knows no other end. -/
  only : ∀ k x ci, f (toLex (k, x)) = some ci → ∃ p ∈ H.periodsOf k, KeyPeriod.pos p = x

namespace Represents

variable {P P' : Version → Prop} {f f' : VersionId → Option ClosedInterval} {H : History}

theorem empty : Represents (fun _ => False) (fun _ => none) History.empty :=
  ⟨fun v => by simp [History.periodsOf, History.empty], fun k p hp => by
    simp [History.periodsOf, History.empty] at hp, fun k x ci h => by simp at h⟩

theorem congr (hR : Represents P f H) (hP : ∀ v, P' v ↔ P v) (hf : ∀ i, f' i = f i) :
    Represents P' f' H :=
  ⟨fun v => (hP v).trans (hR.holds v), fun k p hp => (hf _).trans (hR.ends k p hp),
    fun k x ci h => hR.only k x ci ((hf _).symm.trans h)⟩

/-- No two different versions held have one identity. -/
theorem consistent (hR : Represents P f H) (hH : H.WellFormed) {v w : Version} (hv : P v)
    (hw : P w) (h : v.id = w.id) : v = w := by
  obtain ⟨k, p, hp, rfl⟩ := (hR.holds v).1 hv
  obtain ⟨k', q, hq, rfl⟩ := (hR.holds w).1 hw
  simp only [KeyPeriod.version_id, EmbeddingLike.apply_eq_iff_eq, Prod.mk.injEq] at h
  obtain ⟨rfl, hpos⟩ := h
  rw [hH.eq_of_pos_eq hp hq hpos]

/-- A stored version carries the end of its period. -/
theorem stamp_eq (hR : Represents P f H) {k : BusinessKey} {p : KeyPeriod}
    (hp : p ∈ H.periodsOf k) :
    (KeyPeriod.version k p).stamp (f (KeyPeriod.version k p).id) = KeyPeriod.resolved k p := by
  rw [KeyPeriod.version_id, hR.ends k p hp, KeyPeriod.resolved]

end Represents

theorem KeyPeriod.lt_sysTo_iff {k : BusinessKey} {p : KeyPeriod} {s : SystemTimeMicros}
    (hs : s < systemTimeOpen) :
    s < (KeyPeriod.resolved k p).sysTo ↔ ∀ u ∈ p.stop, s < u.instant := by
  cases hst : p.stop with
  | none =>
    simp only [KeyPeriod.resolved, KeyPeriod.ending, hst, Option.map_none, Version.stamp]
    simpa [KeyPeriod.version, Version.mkOpen] using hs
  | some u => simp [KeyPeriod.resolved, KeyPeriod.ending, hst, Version.stamp]

namespace Represents

variable {P P' : Version → Prop} {f f' : VersionId → Option ClosedInterval} {H : History}

/-- **A read at `s` finds the version of the period that contains `s`.** -/
theorem resolves_iff (hR : Represents P f H) (hH : H.WellFormed) {k : BusinessKey}
    {s : SystemTimeMicros} (hs : s < systemTimeOpen) {v : Version} :
    Resolves P f k s v ↔
      ∃ p ∈ H.periodsOf k, Contains p s ∧ KeyPeriod.resolved k p = v := by
  constructor
  · rintro ⟨raw, hraw, hk, hle, -, rfl, hlt⟩
    obtain ⟨k', p, hp, rfl⟩ := (hR.holds raw).1 hraw
    rw [KeyPeriod.version_businessKey] at hk
    subst hk
    rw [hR.stamp_eq hp, KeyPeriod.lt_sysTo_iff hs] at hlt
    exact ⟨p, hp, ⟨hle, hlt⟩, (hR.stamp_eq hp).symm⟩
  · rintro ⟨p, hp, ⟨hstart, hstop⟩, rfl⟩
    refine ⟨KeyPeriod.version k p, (hR.holds _).2 ⟨k, p, hp, rfl⟩, rfl, hstart, ?_,
      (hR.stamp_eq hp).symm, (KeyPeriod.lt_sysTo_iff hs).2 hstop⟩
    intro w hw hwk hws
    obtain ⟨k', q, hq, rfl⟩ := (hR.holds w).1 hw
    rw [KeyPeriod.version_businessKey] at hwk
    subst hwk
    -- a period of greater position would begin after this one has ended, so after `s`
    rcases hH.periods_trichotomy hp hq with rfl | ⟨-, u, hu, hle⟩ | ⟨hlt, -⟩
    · exact le_rfl
    · exact absurd (hstop u hu) (not_lt.2 (hle.trans hws))
    · exact hlt.le

/-- The payload a read returns is the one the key's timeline carries at that instant. -/
theorem resolves_payload (hR : Represents P f H) (hH : H.WellFormed) {k : BusinessKey}
    {s : SystemTimeMicros} (hs : s < systemTimeOpen) {b : Option Bytes} :
    (∃ v, Resolves P f k s v ∧ v.payload = b) ↔ (stateAt (H k) s).map Prod.snd = some b := by
  rw [Option.map_eq_some_iff]
  have hstate : ∀ a, stateAt (H k) s = some a ↔
      ∃ p ∈ H.periodsOf k, p.value = a ∧ Contains p s :=
    fun a => stateAt_eq_some (hH.ordered k) (by rintro u ⟨⟩)
  simp only [hstate]
  constructor
  · rintro ⟨v, hv, rfl⟩
    obtain ⟨p, hp, hc, rfl⟩ := (hR.resolves_iff hH hs).1 hv
    exact ⟨p.value, ⟨p, hp, rfl, hc⟩, by simp [KeyPeriod.resolved, KeyPeriod.version,
      Version.mkOpen]⟩
  · rintro ⟨a, ⟨p, hp, rfl, hc⟩, rfl⟩
    exact ⟨_, (hR.resolves_iff hH hs).2 ⟨p, hp, hc, rfl⟩, by simp [KeyPeriod.resolved,
      KeyPeriod.version, Version.mkOpen]⟩

end Represents

/-- The period after the event `e`: ended by it if it was open. -/
def KeyPeriod.endBy (e : KeyEvent) (p : KeyPeriod) : KeyPeriod :=
  { p with stop := p.stop.or (some e) }

namespace History

/-- The period a write asserts, if it is not a delete. -/
def newPeriod (e : KeyEvent) : List KeyPeriod :=
  e.value.toList.map fun a => ⟨e.instant, e.author, a, none⟩

theorem periodsOf_write_self (H : History) (k : BusinessKey) (e : KeyEvent) :
    (H.write k e).periodsOf k = newPeriod e ++ (H.periodsOf k).map (KeyPeriod.endBy e) := by
  have hmap : periods (some e) (H k) =
      (H.periodsOf k).map (KeyPeriod.endBy e) := periods_some_eq_map _ _
  rw [periodsOf, write_self]
  cases hv : e.value with
  | some a => rw [periods_cons_some hv, hmap, newPeriod, hv]; rfl
  | none => rw [periods_cons_none hv, hmap, newPeriod, hv]; rfl

theorem mem_periodsOf_write_self {H : History} {k : BusinessKey} {e : KeyEvent} {p : KeyPeriod} :
    p ∈ (H.write k e).periodsOf k ↔ (∃ a ∈ e.value, ⟨e.instant, e.author, a, none⟩ = p) ∨
      ∃ q ∈ H.periodsOf k, KeyPeriod.endBy e q = p := by
  rw [periodsOf_write_self, List.mem_append, List.mem_map, newPeriod, List.mem_map]
  simp only [Option.mem_toList, Option.mem_def]

theorem periodsOf_write_of_ne {k k' : BusinessKey} (h : k' ≠ k) (H : History) (e : KeyEvent) :
    (H.write k e).periodsOf k' = H.periodsOf k' := by
  rw [periodsOf, write_of_ne h, periodsOf]

/-- At an instant no earlier than every write of the key, the period that contains it is the open
one. -/
theorem contains_iff {H : History} {k : BusinessKey}
    {now : SystemTimeMicros} (hle : ∀ e ∈ H k, e.instant ≤ now) {p : KeyPeriod}
    (hp : p ∈ H.periodsOf k) : Contains p now ↔ p.stop = none := by
  obtain ⟨e, he, hs, -⟩ := exists_event_of_mem_periods hp
  constructor
  · intro hc
    cases hst : p.stop with
    | none => rfl
    | some u =>
      -- an end of a period is the instant of a write
      have hu := (exists_event_of_stop hp hst).resolve_left (by simp)
      exact absurd (hc.2 u hst) (not_lt.2 (hle u hu))
  · intro hst
    exact ⟨hs ▸ hle e he, fun u hu => by rw [hst] at hu; cases hu⟩

/-- The position of a new version is new. -/
theorem WellFormed.fresh {H : History} {k : BusinessKey} {e : KeyEvent}
    (hH' : (H.write k e).WellFormed) {a : Seq × Option Bytes} (ha : a ∈ e.value) {q : KeyPeriod}
    (hq : q ∈ H.periodsOf k) : KeyPeriod.pos q ≠ toLex (e.instant, a.1) := by
  intro hpos
  have heq := hH'.eq_of_pos_eq (mem_periodsOf_write_self.2 (.inr ⟨q, hq, rfl⟩))
    (mem_periodsOf_write_self.2 (.inl ⟨a, ha, rfl⟩)) hpos
  have hstop := congrArg Period.stop heq
  simp only [KeyPeriod.endBy] at hstop
  cases hst : q.stop <;> rw [hst] at hstop <;> cases hstop

end History

/-- The close that records the end of the period `p` of `k` by the event `e`. -/
def KeyPeriod.closeBy (k : BusinessKey) (p : KeyPeriod) (e : KeyEvent) : Close :=
  ⟨k, p.start, p.value.1, e.instant, e.author⟩

@[simp] theorem KeyPeriod.closeBy_target (k : BusinessKey) (p : KeyPeriod) (e : KeyEvent) :
    (KeyPeriod.closeBy k p e).target = toLex (k, KeyPeriod.pos p) := rfl

@[simp] theorem KeyPeriod.closeBy_interval (k : BusinessKey) (p : KeyPeriod) (e : KeyEvent) :
    (KeyPeriod.closeBy k p e).interval = ⟨e.instant, e.author⟩ := rfl

/-! ### The records of a history -/

namespace History

variable {H : History} {k : BusinessKey} {e : KeyEvent}

/-- `v` is a version of the history. -/
def Asserts (H : History) (v : Version) : Prop :=
  ∃ k, ∃ p ∈ H.periodsOf k, KeyPeriod.version k p = v

/-- `c` ends a period of the history. -/
def Closes (H : History) (c : Close) : Prop :=
  ∃ k, ∃ p ∈ H.periodsOf k, ∃ u ∈ p.stop, KeyPeriod.closeBy k p u = c

/-- `c` ends a period of the history by an event that asserted nothing. -/
def Retracts (H : History) (c : Close) : Prop :=
  ∃ k, ∃ p ∈ H.periodsOf k, ∃ u ∈ p.stop, u.value = none ∧ KeyPeriod.closeBy k p u = c

/-- Every end fits in a frame. -/
def ClosesFit (H : History) : Prop := ∀ c, H.Closes c → c.Encodable

theorem Retracts.closes {c : Close} (h : H.Retracts c) : H.Closes c := by
  obtain ⟨k, p, hp, u, hu, -, hc⟩ := h
  exact ⟨k, p, hp, u, hu, hc⟩

/-- A version ends at most once. -/
theorem WellFormed.closes_inj (hH : H.WellFormed) {c c' : Close} (hc : H.Closes c)
    (hc' : H.Closes c') (ht : c.target = c'.target) : c = c' := by
  obtain ⟨k, p, hp, u, hu, rfl⟩ := hc
  obtain ⟨k', q, hq, u', hu', rfl⟩ := hc'
  simp only [KeyPeriod.closeBy_target, EmbeddingLike.apply_eq_iff_eq, Prod.mk.injEq] at ht
  obtain ⟨rfl, hpos⟩ := ht
  obtain rfl := hH.eq_of_pos_eq hp hq hpos
  rw [Option.mem_unique hu hu']

/-- A write adds the version it asserts. -/
theorem asserts_write {v : Version} : (H.write k e).Asserts v ↔
    H.Asserts v ∨ ∃ a ∈ e.value, v = Version.mkOpen k e.instant a.1 e.author a.2 := by
  constructor
  · rintro ⟨k', p, hp, rfl⟩
    by_cases hk : k' = k
    · subst hk
      rcases mem_periodsOf_write_self.1 hp with ⟨a, ha, rfl⟩ | ⟨q, hq, rfl⟩
      · exact .inr ⟨a, ha, rfl⟩
      · exact .inl ⟨k', q, hq, rfl⟩
    · rw [periodsOf_write_of_ne hk] at hp
      exact .inl ⟨k', p, hp, rfl⟩
  · rintro (⟨k', p, hp, rfl⟩ | ⟨a, ha, rfl⟩)
    · by_cases hk : k' = k
      · subst hk
        exact ⟨k', KeyPeriod.endBy e p, mem_periodsOf_write_self.2 (.inr ⟨p, hp, rfl⟩), rfl⟩
      · exact ⟨k', p, by rwa [periodsOf_write_of_ne hk], rfl⟩
    · exact ⟨k, ⟨e.instant, e.author, a, none⟩, mem_periodsOf_write_self.2 (.inl ⟨a, ha, rfl⟩), rfl⟩

/-- A write ends the open period of its key and no other. -/
theorem stop_write {k' : BusinessKey} {u : KeyEvent} {c : Close} :
    (∃ p ∈ (H.write k e).periodsOf k', u ∈ p.stop ∧ KeyPeriod.closeBy k' p u = c) ↔
      (∃ p ∈ H.periodsOf k', u ∈ p.stop ∧ KeyPeriod.closeBy k' p u = c) ∨
        (k' = k ∧ u = e ∧ ∃ p ∈ H.periodsOf k, p.stop = none ∧ KeyPeriod.closeBy k p e = c) := by
  by_cases hk : k' = k
  · subst hk
    constructor
    · rintro ⟨p, hp, hu, rfl⟩
      rcases mem_periodsOf_write_self.1 hp with ⟨a, ha, rfl⟩ | ⟨q, hq, rfl⟩
      · cases hu
      · cases hst : q.stop with
        | none =>
          simp only [KeyPeriod.endBy, hst, Option.none_or] at hu
          cases hu
          exact .inr ⟨rfl, rfl, q, hq, hst, rfl⟩
        | some u' =>
          simp only [KeyPeriod.endBy, hst, Option.some_or] at hu
          cases hu
          exact .inl ⟨q, hq, hst, rfl⟩
    · rintro (⟨p, hp, hu, rfl⟩ | ⟨-, rfl, p, hp, hst, rfl⟩)
      · refine ⟨KeyPeriod.endBy e p, mem_periodsOf_write_self.2 (.inr ⟨p, hp, rfl⟩), ?_, rfl⟩
        rw [KeyPeriod.endBy, Option.mem_def.1 hu]
        rfl
      · refine ⟨KeyPeriod.endBy u p, mem_periodsOf_write_self.2 (.inr ⟨p, hp, rfl⟩), ?_, rfl⟩
        rw [KeyPeriod.endBy, hst]
        rfl
  · rw [periodsOf_write_of_ne hk]
    exact ⟨.inl, fun h => h.resolve_right fun h => hk h.1⟩

theorem closes_write {c : Close} : (H.write k e).Closes c ↔
    H.Closes c ∨ ∃ p ∈ H.periodsOf k, p.stop = none ∧ KeyPeriod.closeBy k p e = c := by
  constructor
  · rintro ⟨k', p, hp, u, hu, hc⟩
    rcases stop_write.1 ⟨p, hp, hu, hc⟩ with ⟨q, hq, hu', hc'⟩ | ⟨-, -, h⟩
    · exact .inl ⟨k', q, hq, u, hu', hc'⟩
    · exact .inr h
  · rintro (⟨k', p, hp, u, hu, hc⟩ | h)
    · obtain ⟨q, hq, hu', hc'⟩ := stop_write.2 (.inl ⟨p, hp, hu, hc⟩)
      exact ⟨k', q, hq, u, hu', hc'⟩
    · obtain ⟨q, hq, hu', hc'⟩ := stop_write.2 (.inr ⟨rfl, rfl, h⟩)
      exact ⟨k, q, hq, e, hu', hc'⟩

theorem retracts_write {c : Close} : (H.write k e).Retracts c ↔ H.Retracts c ∨
    (e.value = none ∧ ∃ p ∈ H.periodsOf k, p.stop = none ∧ KeyPeriod.closeBy k p e = c) := by
  constructor
  · rintro ⟨k', p, hp, u, hu, hn, hc⟩
    rcases stop_write.1 ⟨p, hp, hu, hc⟩ with ⟨q, hq, hu', hc'⟩ | ⟨-, rfl, h⟩
    · exact .inl ⟨k', q, hq, u, hu', hn, hc'⟩
    · exact .inr ⟨hn, h⟩
  · rintro (⟨k', p, hp, u, hu, hn, hc⟩ | ⟨hn, h⟩)
    · obtain ⟨q, hq, hu', hc'⟩ := stop_write.2 (.inl ⟨p, hp, hu, hc⟩)
      exact ⟨k', q, hq, u, hu', hn, hc'⟩
    · obtain ⟨q, hq, hu', hc'⟩ := stop_write.2 (.inr ⟨rfl, rfl, h⟩)
      exact ⟨k, q, hq, e, hu', hn, hc'⟩

end History

namespace Represents

section Write

variable {P P' : Version → Prop} {f f' : VersionId → Option ClosedInterval} {H : History}
  {k : BusinessKey} {e : KeyEvent}

variable (hR : Represents P f H)
  (hlive : ∀ p ∈ H.periodsOf k, p.stop = none →
    f' (toLex (k, KeyPeriod.pos p)) = some ⟨e.instant, e.author⟩)
  (hrest : ∀ i, (∀ p ∈ H.periodsOf k, p.stop = none → i ≠ toLex (k, KeyPeriod.pos p)) →
    f' i = f i)

include hrest in
/-- The ends of other keys, and of positions other than the live one, are unchanged. -/
theorem close_write_of_ne {k' : BusinessKey} {x : ChainPos}
    (h : k' = k → ∀ p ∈ H.periodsOf k, p.stop = none → x ≠ KeyPeriod.pos p) :
    f' (toLex (k', x)) = f (toLex (k', x)) := by
  refine hrest _ fun p hp hpn heq => ?_
  simp only [EmbeddingLike.apply_eq_iff_eq, Prod.mk.injEq] at heq
  exact h heq.1 p hp hpn heq.2

include hR hlive hrest in
theorem ends_write (hH : H.WellFormed) (hH' : (H.write k e).WellFormed) {k' : BusinessKey}
    {p : KeyPeriod} (hp : p ∈ (H.write k e).periodsOf k') :
    f' (toLex (k', KeyPeriod.pos p)) = KeyPeriod.ending p := by
  by_cases hk : k' = k
  · subst hk
    rcases History.mem_periodsOf_write_self.1 hp with ⟨a, ha, rfl⟩ | ⟨q, hq, rfl⟩
    · -- the new version has no end yet
      change f' (toLex (k', toLex (e.instant, a.1))) = none
      rw [close_write_of_ne hrest fun _ q hq _ heq => hH'.fresh ha hq heq.symm]
      cases hfx : f (toLex (k', toLex (e.instant, a.1))) with
      | none => rfl
      | some ci =>
        obtain ⟨q, hq, hpos⟩ := hR.only _ _ _ hfx
        exact absurd hpos (hH'.fresh ha hq)
    · cases hst : q.stop with
      | none =>
        simp only [KeyPeriod.ending, KeyPeriod.endBy, hst, Option.none_or, Option.map_some]
        exact hlive q hq hst
      | some u =>
        have hne : ∀ p ∈ H.periodsOf k', p.stop = none → KeyPeriod.pos q ≠ KeyPeriod.pos p := by
          intro p hp hpn heq
          rw [hH.eq_of_pos_eq hq hp heq, hpn] at hst
          cases hst
        have hends := hR.ends k' q hq
        simp only [KeyPeriod.ending, KeyPeriod.endBy, hst, Option.some_or] at hends ⊢
        exact (close_write_of_ne hrest fun _ => hne).trans hends
  · rw [History.periodsOf_write_of_ne hk] at hp
    rw [close_write_of_ne hrest fun h => absurd h hk, hR.ends k' p hp]

include hR hrest in
theorem only_write {k' : BusinessKey} {x : ChainPos} {ci : ClosedInterval}
    (hx : f' (toLex (k', x)) = some ci) :
    ∃ p ∈ (H.write k e).periodsOf k', KeyPeriod.pos p = x := by
  by_cases hl : k' = k ∧ ∃ p ∈ H.periodsOf k, p.stop = none ∧ x = KeyPeriod.pos p
  · obtain ⟨rfl, p, hp, -, rfl⟩ := hl
    exact ⟨KeyPeriod.endBy e p, History.mem_periodsOf_write_self.2 (.inr ⟨p, hp, rfl⟩), rfl⟩
  · rw [close_write_of_ne hrest fun hk p hp hpn heq => hl ⟨hk, p, hp, hpn, heq⟩] at hx
    obtain ⟨q, hq, rfl⟩ := hR.only _ _ _ hx
    by_cases hk : k' = k
    · subst hk
      exact ⟨KeyPeriod.endBy e q, History.mem_periodsOf_write_self.2 (.inr ⟨q, hq, rfl⟩), rfl⟩
    · exact ⟨q, by rwa [History.periodsOf_write_of_ne hk], rfl⟩

include hR hlive hrest in
/-- **A write keeps the representation**: the tiers gain the version it asserts, the index the end
of the version that was live. -/
theorem write (hH : H.WellFormed) (hH' : (H.write k e).WellFormed)
    (hP : ∀ v, P' v ↔ P v ∨ ∃ a ∈ e.value, v = Version.mkOpen k e.instant a.1 e.author a.2) :
    Represents P' f' (H.write k e) where
  holds := fun v => by rw [hP, hR.holds]; exact History.asserts_write.symm
  ends := fun _ _ hp => hR.ends_write hlive hrest hH hH' hp
  only := fun _ _ _ hx => hR.only_write hrest hx

end Write

end Represents

/-! ### The versions of a history -/

/-- `v` is a version of the history, with its end. -/
def History.Resolved (H : History) (v : Version) : Prop :=
  ∃ k, ∃ p ∈ H.periodsOf k, KeyPeriod.resolved k p = v

/-- The system period of a version. -/
def Version.sysPeriod (v : Version) : SystemTimeMicros × SystemTimeMicros := (v.sysFrom, v.sysTo)

namespace History

variable {H : History} {v w : Version} {s : SystemTimeMicros}

/-- A version of a later position of its key begins when this one has ended. -/
theorem WellFormed.sysTo_le_of_pos_lt (hH : H.WellFormed) {k : BusinessKey} {p q : KeyPeriod}
    (hp : p ∈ H.periodsOf k) (hq : q ∈ H.periodsOf k) (h : KeyPeriod.pos p < KeyPeriod.pos q) :
    (KeyPeriod.resolved k p).sysTo ≤ q.start := by
  rcases hH.periods_trichotomy hp hq with rfl | ⟨-, u, hu, hle⟩ | ⟨hlt, -⟩
  · exact absurd h (lt_irrefl _)
  · rw [KeyPeriod.resolved_sysTo hu]
    exact hle
  · exact absurd h hlt.asymm

/-- At an instant a key has one version. -/
theorem Resolved.eq_of_contains (hv : H.Resolved v) (hw : H.Resolved w) (hH : H.WellFormed)
    (hk : v.businessKey = w.businessKey) (hvs : Intervals.Contains v.sysPeriod s)
    (hws : Intervals.Contains w.sysPeriod s) : v = w := by
  obtain ⟨k, p, hp, rfl⟩ := hv
  obtain ⟨k', q, hq, rfl⟩ := hw
  simp only [KeyPeriod.resolved_businessKey] at hk
  subst hk
  simp only [Version.sysPeriod, Intervals.Contains, KeyPeriod.resolved_sysFrom] at hvs hws
  rcases lt_trichotomy (KeyPeriod.pos p) (KeyPeriod.pos q) with h | h | h
  · exact absurd hvs.2 (not_lt.2 ((hH.sysTo_le_of_pos_lt hp hq h).trans hws.1))
  · rw [hH.eq_of_pos_eq hp hq h]
  · exact absurd hws.2 (not_lt.2 ((hH.sysTo_le_of_pos_lt hq hp h).trans hvs.1))

/-- Versions of one identity are equal. -/
theorem Resolved.eq_of_id (hv : H.Resolved v) (hw : H.Resolved w) (hH : H.WellFormed)
    (hid : v.id = w.id) : v = w := by
  obtain ⟨k, p, hp, rfl⟩ := hv
  obtain ⟨k', q, hq, rfl⟩ := hw
  obtain ⟨hk, hpos⟩ := Version.id_eq_iff.1 hid
  simp only [KeyPeriod.resolved_businessKey, KeyPeriod.resolved_pos] at hk hpos
  subst hk
  rw [hH.eq_of_pos_eq hp hq hpos]

end History

section Tiers

variable {P : Version → Prop} {ix : ValidityIndex} {H : History} {T : List Version}

/-- The stored version of a resolved one is in the list. -/
def HeldIn (H : History) (T : List Version) (v : Version) : Prop :=
  ∃ k, ∃ p ∈ H.periodsOf k, KeyPeriod.version k p ∈ T ∧ KeyPeriod.resolved k p = v

theorem HeldIn.resolved {v : Version} (h : HeldIn H T v) : H.Resolved v := by
  obtain ⟨k, p, hp, -, rfl⟩ := h
  exact ⟨k, p, hp, rfl⟩

variable (hR : Represents P ix.closeOf H) (hH : H.WellFormed) (hw : ix.WriteOnce)
  (hT : ∀ v ∈ T, P v)

include hR hT in
theorem exists_stamp_iff {v : Version} :
    (∃ raw ∈ T, raw.stamp (ix.closeOf raw.id) = v) ↔ HeldIn H T v := by
  constructor
  · rintro ⟨raw, hraw, rfl⟩
    obtain ⟨k, p, hp, rfl⟩ := (hR.holds raw).1 (hT raw hraw)
    exact ⟨k, p, hp, hraw, (hR.stamp_eq hp).symm⟩
  · rintro ⟨k, p, hp, hmem, rfl⟩
    exact ⟨_, hmem, hR.stamp_eq hp⟩

include hR hH hw hT in
/-- The versions of a list live at a snapshot. -/
theorem mem_live {s : SystemTimeMicros} {v : Version} :
    v ∈ resolveSnapshot (foldChains T ix) s ↔
      HeldIn H T v ∧ Intervals.Contains v.sysPeriod s := by
  rw [mem_resolveSnapshot (fun a ha b hb => hR.consistent hH (hT a ha) (hT b hb)) hw]
  constructor
  · rintro ⟨key, raw, hraw, hk, hs, -, rfl, hlt⟩
    refine ⟨(exists_stamp_iff hR hT).1 ⟨raw, hraw, rfl⟩, ?_, hlt⟩
    simpa [Version.sysPeriod] using hs
  · rintro ⟨⟨k, p, hp, hmem, rfl⟩, hc⟩
    simp only [Version.sysPeriod, Intervals.Contains, KeyPeriod.resolved_sysFrom] at hc
    refine ⟨k, KeyPeriod.version k p, hmem, rfl, hc.1, ?_, (hR.stamp_eq hp).symm, hc.2⟩
    intro w hwT hwk hws
    obtain ⟨k', q, hq, rfl⟩ := (hR.holds w).1 (hT w hwT)
    rw [KeyPeriod.version_businessKey] at hwk
    subst hwk
    -- a later version would begin after this one has ended, so after the snapshot
    rw [KeyPeriod.version_pos, KeyPeriod.version_pos]
    refine not_lt.1 fun hlt => absurd hc.2 (not_lt.2 ?_)
    exact (hH.sysTo_le_of_pos_lt hp hq hlt).trans hws

end Tiers

end SteleDb
