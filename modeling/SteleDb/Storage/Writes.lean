import SteleDb.Storage.History
import SteleDb.Storage.SysTime

/-!
# What a write does to a table

`Stores t sv H` ties the tiers `t` of a table and its sealed versions `sv` to the histories `H`
they represent.  `Writes H redos H'` says that `redos` is the redo set of a run of accepted writes
that takes `H` to `H'`, one constructor per kind of write.

* `Stores.resolveLive_now` : what the write path takes for the live version is the open period;
* `Stores.stageInsert`, `Stores.stageUpdate`, `Stores.stageDelete` : when a write is refused, and
  what it resolves to otherwise;
* `Stores.applyRedos` : applying one, in a forward write or in a replay, with or without spilling,
  takes a table that stores `H` to one that stores `H'`.
-/

namespace SteleDb

open Timeline

/-- The tiers `t` with the sealed versions `sv` store the histories `H`, and their disk works. -/
structure Stores (t : Tiers) (sv : List Version) (H : History) : Prop where
  wellFormed : H.WellFormed
  represents : Represents (fun v => t.delta.Holds v ∨ v ∈ sv) t.index.closeOf H
  writeOnce : t.index.WriteOnce
  retracted : ∀ c ∈ t.delta.retractions, t.index.closeOf c.target = some c.interval
  deltaClean : t.delta.faults.Clean
  indexClean : t.index.faults.Clean

/-! ### Reads -/

namespace Stores

variable {t : Tiers} {sv : List Version} {H : History}

theorem consistentLists (h : Stores t sv H) (k : BusinessKey) :
    ConsistentLists (t.delta.candidateVersions k) (versionsFor sv k) := by
  intro v w hv hw hid
  refine h.represents.consistent h.wellFormed ?_ ?_ hid
  · exact hv.imp (fun hv => (Delta.mem_candidateVersions.1 hv).1) fun hv =>
      (List.mem_filter.1 hv).1
  · exact hw.imp (fun hw => (Delta.mem_candidateVersions.1 hw).1) fun hw =>
      (List.mem_filter.1 hw).1

/-- A point read resolves over the versions stored and the ends known. -/
theorem resolveLive_eq_some (h : Stores t sv H) {k : BusinessKey} {s : SystemTimeMicros}
    {v : Version} : resolveLive t sv k s = some v ↔
      Resolves (fun v => t.delta.Holds v ∨ v ∈ sv) t.index.closeOf k s v := by
  rw [resolveLive, resolveOpen_eq_some (h.consistentLists k) h.writeOnce]
  refine resolves_congr (fun w hw => ?_) fun w _ => rfl
  rw [Delta.mem_candidateVersions, versionsFor, List.mem_filter, decide_eq_true_eq]
  simp only [hw, and_true]

/-- A point read below the sentinel finds the period that contains the snapshot. -/
theorem resolveLive_eq_some_iff (h : Stores t sv H) {k : BusinessKey} {s : SystemTimeMicros}
    (hs : s < systemTimeOpen) {v : Version} : resolveLive t sv k s = some v ↔
      ∃ p ∈ H.periodsOf k, Contains p s ∧ KeyPeriod.resolved k p = v := by
  rw [h.resolveLive_eq_some, h.represents.resolves_iff h.wellFormed hs]

/-- **The live version a write finds is the one of the open period.** -/
theorem resolveLive_now (h : Stores t sv H) {k : BusinessKey} {now : SystemTimeMicros}
    (hnow : now < systemTimeOpen) (hle : ∀ e ∈ H k, e.instant ≤ now) {v : Version} :
    resolveLive t sv k now = some v ↔
      ∃ p ∈ H.periodsOf k, p.stop = none ∧ KeyPeriod.version k p = v := by
  rw [h.resolveLive_eq_some_iff hnow]
  refine exists_congr fun p => and_congr_right fun hp => ?_
  rw [History.contains_iff hle hp]
  refine and_congr_right fun hst => ?_
  rw [KeyPeriod.resolved, KeyPeriod.ending, hst]
  rfl

theorem resolveLive_eq_none (h : Stores t sv H) {k : BusinessKey} {now : SystemTimeMicros}
    (hnow : now < systemTimeOpen) (hle : ∀ e ∈ H k, e.instant ≤ now) :
    resolveLive t sv k now = none ↔ ∀ p ∈ H.periodsOf k, p.stop ≠ none := by
  rw [Option.eq_none_iff_forall_ne_some]
  constructor
  · intro hn p hp hst
    exact hn _ ((h.resolveLive_now hnow hle).2 ⟨p, hp, hst, rfl⟩)
  · rintro hn v hv
    obtain ⟨p, hp, hst, -⟩ := (h.resolveLive_now hnow hle).1 hv
    exact hn p hp hst

theorem delta_consistent (h : Stores t sv H) : t.delta.Consistent :=
  fun _ _ hv hw => h.represents.consistent h.wellFormed (.inl hv) (.inl hw)

/-- Sealing the staged versions moves them and changes nothing else. -/
theorem sealStaged (h : Stores t sv H) {sv' : List Version}
    (hsv : ∀ v, v ∈ sv' ↔ v ∈ sv ∨ v ∈ t.delta.stagedVersions) :
    Stores { t with delta := t.delta.discardFlushed } sv' H where
  wellFormed := h.wellFormed
  represents := h.represents.congr (fun v => by
    rw [hsv, Delta.stagedVersions, Delta.mem_mergeStaged h.delta_consistent,
      Delta.discardFlushed]
    simp only [Delta.holds_clearStaged, false_or, or_comm]) fun i => rfl
  writeOnce := h.writeOnce
  retracted := fun c hc => absurd hc (KeyedMap.not_mem_empty c)
  deltaClean := h.deltaClean
  indexClean := h.indexClean

/-- The order of the sealed versions does not matter. -/
theorem sealed_congr (h : Stores t sv H) {sv' : List Version} (hsv : ∀ v, v ∈ sv' ↔ v ∈ sv) :
    Stores t sv' H where
  wellFormed := h.wellFormed
  represents := h.represents.congr (fun v => by rw [hsv]) fun i => rfl
  writeOnce := h.writeOnce
  retracted := h.retracted
  deltaClean := h.deltaClean
  indexClean := h.indexClean

/-- A table without writes. -/
theorem empty (c : DeltaConfig) (c' : ValidityConfig) :
    Stores { delta := { config := c }, index := { config := c' } } [] History.empty where
  wellFormed := History.wellFormed_empty
  represents := Represents.empty.congr
    (fun v => by simp [Delta.Holds, MemTier.new, Delta.spillRows]) (fun i => rfl)
  writeOnce := fun c c' hc => by simp [ValidityIndex.Has, ValidityIndex.spillCloses] at hc
  retracted := fun c hc => absurd hc (KeyedMap.not_mem_empty c)
  deltaClean := fun o ho => nomatch ho
  indexClean := fun o ho => nomatch ho

end Stores

/-- Two tables that store the same histories answer every read alike, at any snapshot. -/
theorem Stores.resolveLive_congr {t t' : Tiers} {sv sv' : List Version} {H : History}
    (h : Stores t sv H) (h' : Stores t' sv' H) (k : BusinessKey) (s : SystemTimeMicros) :
    resolveLive t sv k s = resolveLive t' sv' k s := by
  apply Option.ext
  intro v
  rw [h.resolveLive_eq_some, h'.resolveLive_eq_some]
  refine resolves_congr (fun w _ => (h.represents.holds w).trans (h'.represents.holds w).symm)
    fun w hw => ?_
  obtain ⟨k, p, hp, rfl⟩ := (h.represents.holds w).1 hw
  rw [KeyPeriod.version_id, h.represents.ends k p hp, h'.represents.ends k p hp]

theorem Represents.close_congr {P P' : Version → Prop} {f f' : VersionId → Option ClosedInterval}
    {H : History} (h : Represents P f H) (h' : Represents P' f' H) (i : VersionId) :
    f i = f' i := by
  obtain ⟨k, x⟩ := i
  change f (toLex (k, x)) = f' (toLex (k, x))
  by_cases hx : ∃ p ∈ H.periodsOf k, KeyPeriod.pos p = x
  · obtain ⟨p, hp, rfl⟩ := hx
    rw [h.ends k p hp, h'.ends k p hp]
  · have none_of : ∀ {P f}, Represents P f H → f (toLex (k, x)) = none := by
      intro P f h
      cases hf : f (toLex (k, x)) with
      | none => rfl
      | some ci => exact absurd (h.only k x ci hf) hx
    rw [none_of h, none_of h']

/-- Two tables that store the same histories have the same index. -/
theorem Stores.materialize_congr {t t' : Tiers} {sv sv' : List Version} {H : History}
    (h : Stores t sv H) (h' : Stores t' sv' H) : t.index.materialize = t'.index.materialize :=
  ValidityIndex.materialize_congr h.writeOnce h'.writeOnce
    (h.represents.close_congr h'.represents)

/-! ### Redo sets -/

/-- `Writes H redos H'` : `redos` is the redo set of accepted writes taking `H` to `H'`. -/
inductive Writes : History → List Redo → History → Prop
  | nil (H : History) : Writes H [] H
  | insert {H H' : History} {redos : List Redo} {k : BusinessKey} {e : KeyEvent}
      {a : Seq × Option Bytes} (hdead : ∀ p ∈ H.periodsOf k, p.stop ≠ none) (ha : e.value = some a)
      (hwf : (H.write k e).WellFormed)
      (henc : (Version.mkOpen k e.instant a.1 e.author a.2).Encodable)
      (rest : Writes (H.write k e) redos H') :
      Writes H (.insert (Version.mkOpen k e.instant a.1 e.author a.2) :: redos) H'
  | update {H H' : History} {redos : List Redo} {k : BusinessKey} {e : KeyEvent}
      {a : Seq × Option Bytes} {p : KeyPeriod} (hp : p ∈ H.periodsOf k) (hlive : p.stop = none)
      (ha : e.value = some a) (hwf : (H.write k e).WellFormed)
      (hcl : (KeyPeriod.closeBy k p e).Encodable)
      (henc : (Version.mkOpen k e.instant a.1 e.author a.2).Encodable)
      (rest : Writes (H.write k e) redos H') :
      Writes H (.close (KeyPeriod.closeBy k p e) ::
        .insert (Version.mkOpen k e.instant a.1 e.author a.2) :: redos) H'
  | delete {H H' : History} {redos : List Redo} {k : BusinessKey} {e : KeyEvent} {p : KeyPeriod}
      (hp : p ∈ H.periodsOf k) (hlive : p.stop = none) (ha : e.value = none)
      (hwf : (H.write k e).WellFormed) (hcl : (KeyPeriod.closeBy k p e).Encodable)
      (rest : Writes (H.write k e) redos H') :
      Writes H (.retract (KeyPeriod.closeBy k p e) :: redos) H'

theorem Writes.trans {H H' H'' : History} {rs rs' : List Redo} (h : Writes H rs H')
    (h' : Writes H' rs' H'') : Writes H (rs ++ rs') H'' := by
  induction h with
  | nil H => exact h'
  | insert hdead ha hwf henc _ ih => exact .insert hdead ha hwf henc (ih h')
  | update hp hlive ha hwf hcl henc _ ih => exact .update hp hlive ha hwf hcl henc (ih h')
  | delete hp hlive ha hwf hcl _ ih => exact .delete hp hlive ha hwf hcl (ih h')

/-! ### Applying one entry -/

theorem applyRedo_insert {t : Tiers} {v : Version} (hf : t.delta.faults.Clean) (hv : v.Encodable)
    (hfresh : ∀ w, t.delta.Holds w → w.id = v.id → w = v) (b : Bool) :
    ∃ t', applyRedo b t (.insert v) = (t', .ok ()) ∧ t'.index = t.index ∧
      t'.delta.faults.Clean ∧ t'.delta.retractions = t.delta.retractions ∧
      ∀ w, t'.delta.Holds w ↔ w = v ∨ t.delta.Holds w := by
  obtain ⟨d', hd, hr, hf', hh⟩ := Delta.insertInner_clean hf hv hfresh b
  refine ⟨{ t with delta := d' }, ?_, rfl, hf', hr, hh⟩
  simp only [applyRedo, hd]

theorem applyRedo_close {t : Tiers} {c : Close} (hw : t.index.WriteOnce)
    (hf : t.index.faults.Clean) (hc : c.Encodable) (hnone : t.index.closeOf c.target = none)
    (b : Bool) :
    ∃ t', applyRedo b t (.close c) = (t', .ok ()) ∧ t'.delta = t.delta ∧ t'.index.WriteOnce ∧
      t'.index.faults.Clean ∧
      ∀ i, t'.index.closeOf i = if i = c.target then some c.interval else t.index.closeOf i := by
  obtain ⟨ix', hix, hw', hf', -, hcl⟩ := ValidityIndex.insertCloseInner_clean hw hf hc hnone b
  refine ⟨{ t with index := ix' }, ?_, rfl, hw', hf', hcl⟩
  simp only [applyRedo, hix]

theorem applyRedo_retract {t : Tiers} {c : Close} (hw : t.index.WriteOnce)
    (hf : t.index.faults.Clean) (hc : c.Encodable) (hnone : t.index.closeOf c.target = none)
    (b : Bool) :
    ∃ t', applyRedo b t (.retract c) = (t', .ok ()) ∧ t'.delta = t.delta.stageRetraction c ∧
      t'.index.WriteOnce ∧ t'.index.faults.Clean ∧
      ∀ i, t'.index.closeOf i = if i = c.target then some c.interval else t.index.closeOf i := by
  obtain ⟨ix', hix, hw', hf', -, hcl⟩ := ValidityIndex.insertCloseInner_clean hw hf hc hnone b
  refine ⟨⟨t.delta.stageRetraction c, ix'⟩, ?_, rfl, hw', hf', hcl⟩
  simp only [applyRedo, hix]

theorem applyRedos_append (b : Bool) (t : Tiers) (rs rs' : List Redo) :
    applyRedos b t (rs ++ rs') = match applyRedos b t rs with
      | (t, .ok ()) => applyRedos b t rs'
      | (t, .error e) => (t, .error e) := by
  induction rs generalizing t with
  | nil => rfl
  | cons r rs ih =>
    simp only [List.cons_append, applyRedos]
    rcases applyRedo b t r with ⟨t', _ | _⟩
    · rfl
    · exact ih t'

/-! ### Applying a redo set -/

/-- What a successful redo set does to the delta tier: it adds the versions and tombstones it
names. -/
structure Staged (t t' : Tiers) (rs : List Redo) : Prop where
  holds : ∀ w, t'.delta.Holds w ↔ t.delta.Holds w ∨ Redo.insert w ∈ rs
  retractions : ∀ c, c ∈ t'.delta.retractions ↔ c ∈ t.delta.retractions ∨ Redo.retract c ∈ rs

theorem Staged.trans {t t' t'' : Tiers} {rs rs' : List Redo} (h : Staged t t' rs)
    (h' : Staged t' t'' rs') : Staged t t'' (rs ++ rs') where
  holds w := by rw [h'.holds, h.holds, List.mem_append, or_assoc]
  retractions c := by rw [h'.retractions, h.retractions, List.mem_append, or_assoc]

namespace Stores

variable {t : Tiers} {sv : List Version} {H : History} {k : BusinessKey} {e : KeyEvent}
  {p : KeyPeriod}

/-- A version the table holds that has the identity of a new version would be in its key's
history. -/
theorem fresh (h : Stores t sv H) {a : Seq × Option Bytes} (ha : e.value = some a)
    (hwf : (H.write k e).WellFormed) {w : Version} (hw : t.delta.Holds w ∨ w ∈ sv) :
    w.id ≠ toLex (k, toLex (e.instant, a.1)) := by
  intro hid
  obtain ⟨k', q, hq, rfl⟩ := (h.represents.holds w).1 hw
  simp only [KeyPeriod.version_id, EmbeddingLike.apply_eq_iff_eq, Prod.mk.injEq] at hid
  obtain ⟨rfl, hpos⟩ := hid
  exact hwf.fresh ha hq hpos

theorem closeOf_live (h : Stores t sv H) (hp : p ∈ H.periodsOf k) (hlive : p.stop = none) :
    t.index.closeOf (toLex (k, KeyPeriod.pos p)) = none := by
  rw [h.represents.ends k p hp, KeyPeriod.ending, hlive]
  rfl

/-- The index after the close of the open period of `k`. -/
theorem close_spec (h : Stores t sv H) (hp : p ∈ H.periodsOf k) (hlive : p.stop = none)
    {f : VersionId → Option ClosedInterval}
    (hf : ∀ i, f i = if i = (KeyPeriod.closeBy k p e).target then
      some (KeyPeriod.closeBy k p e).interval else t.index.closeOf i) :
    (∀ q ∈ H.periodsOf k, q.stop = none →
      f (toLex (k, KeyPeriod.pos q)) = some ⟨e.instant, e.author⟩) ∧
    ∀ i, (∀ q ∈ H.periodsOf k, q.stop = none → i ≠ toLex (k, KeyPeriod.pos q)) →
      f i = t.index.closeOf i := by
  constructor
  · intro q hq hqn
    -- there is only one open period
    have hqp : q = p := by
      rcases h.wellFormed.periods_trichotomy hq hp with h' | ⟨-, u, hu, -⟩ | ⟨-, u, hu, -⟩
      · exact h'
      · rw [hqn] at hu; cases hu
      · rw [hlive] at hu; cases hu
    rw [hf, hqp]
    exact if_pos rfl
  · intro i hi
    rw [hf]
    exact if_neg (hi p hp hlive)

theorem insert_step (h : Stores t sv H) {a : Seq × Option Bytes}
    (hdead : ∀ p ∈ H.periodsOf k, p.stop ≠ none) (ha : e.value = some a)
    (hwf : (H.write k e).WellFormed)
    (henc : (Version.mkOpen k e.instant a.1 e.author a.2).Encodable) (b : Bool) :
    ∃ t', applyRedo b t (.insert (Version.mkOpen k e.instant a.1 e.author a.2)) = (t', .ok ()) ∧
      Stores t' sv (H.write k e) ∧
      Staged t t' [.insert (Version.mkOpen k e.instant a.1 e.author a.2)] := by
  obtain ⟨t', ht', hix, hf, hr, hh⟩ := applyRedo_insert h.deltaClean henc
    (fun w hw hid => absurd hid (h.fresh ha hwf (.inl hw))) b
  refine ⟨t', ht', ?_, ⟨fun w => ?_, fun c => ?_⟩⟩
  · refine ⟨hwf, h.represents.write ?_ ?_ h.wellFormed hwf ?_, hix ▸ h.writeOnce, ?_, hf,
      hix ▸ h.indexClean⟩
    · exact fun q hq hqn => absurd hqn (hdead q hq)
    · intro i _; rw [hix]
    · intro v
      rw [hh]
      simp only [ha, Option.mem_some_iff, exists_eq_left']
      tauto
    · rw [hr, hix]; exact h.retracted
  · rw [hh, List.mem_singleton, Redo.insert.injEq, or_comm]
  · rw [hr]; simp

theorem update_step (h : Stores t sv H) {a : Seq × Option Bytes} (hp : p ∈ H.periodsOf k)
    (hlive : p.stop = none) (ha : e.value = some a) (hwf : (H.write k e).WellFormed)
    (hcl : (KeyPeriod.closeBy k p e).Encodable)
    (henc : (Version.mkOpen k e.instant a.1 e.author a.2).Encodable) (b : Bool) :
    ∃ t', applyRedos b t [.close (KeyPeriod.closeBy k p e),
        .insert (Version.mkOpen k e.instant a.1 e.author a.2)] = (t', .ok ()) ∧
      Stores t' sv (H.write k e) ∧ Staged t t' [.close (KeyPeriod.closeBy k p e),
        .insert (Version.mkOpen k e.instant a.1 e.author a.2)] := by
  obtain ⟨t₁, ht₁, hd, hw, hf, hc⟩ := applyRedo_close h.writeOnce h.indexClean hcl
    (h.closeOf_live hp hlive) b
  obtain ⟨t', ht', hix, hf', hr, hh⟩ := applyRedo_insert (t := t₁) (hd ▸ h.deltaClean) henc
    (fun w hw hid => absurd hid (h.fresh ha hwf (.inl (hd ▸ hw)))) b
  obtain ⟨hends, hrest⟩ := h.close_spec hp hlive hc
  refine ⟨t', by simp only [applyRedos, ht₁, ht'], ?_, ⟨fun w => ?_, fun c => ?_⟩⟩
  · refine ⟨hwf, h.represents.write ?_ ?_ h.wellFormed hwf ?_, hix ▸ hw, ?_, hf', hix ▸ hf⟩
    · rw [hix]; exact hends
    · rw [hix]; exact hrest
    · intro v
      rw [hh, hd]
      simp only [ha, Option.mem_some_iff, exists_eq_left']
      tauto
    · intro c hcr
      rw [hr, hd] at hcr
      rw [hix, hc, if_neg, h.retracted c hcr]
      intro heq
      have := h.retracted c hcr
      rw [heq, KeyPeriod.closeBy_target, h.closeOf_live hp hlive] at this
      cases this
  · rw [hh, hd]; simp [or_comm]
  · rw [hr, hd]; simp

theorem delete_step (h : Stores t sv H) (hp : p ∈ H.periodsOf k) (hlive : p.stop = none)
    (ha : e.value = none) (hwf : (H.write k e).WellFormed)
    (hcl : (KeyPeriod.closeBy k p e).Encodable) (b : Bool) :
    ∃ t', applyRedo b t (.retract (KeyPeriod.closeBy k p e)) = (t', .ok ()) ∧
      Stores t' sv (H.write k e) ∧ Staged t t' [.retract (KeyPeriod.closeBy k p e)] := by
  obtain ⟨t', ht', hd, hw, hf, hc⟩ := applyRedo_retract h.writeOnce h.indexClean hcl
    (h.closeOf_live hp hlive) b
  obtain ⟨hends, hrest⟩ := h.close_spec hp hlive hc
  -- a tombstone waiting already is of a version that has ended
  have hne : ∀ c ∈ t.delta.retractions, c.target ≠ (KeyPeriod.closeBy k p e).target := by
    intro c hcr heq
    have := h.retracted c hcr
    rw [heq, KeyPeriod.closeBy_target, h.closeOf_live hp hlive] at this
    cases this
  have hret : ∀ c, c ∈ t'.delta.retractions ↔
      c = KeyPeriod.closeBy k p e ∨ c ∈ t.delta.retractions := by
    intro c
    rw [hd, Delta.stageRetraction, KeyedMap.mem_insert]
    exact or_congr_right ⟨And.left, fun hcr => ⟨hcr, hne c hcr⟩⟩
  have hh : ∀ w, t'.delta.Holds w ↔ t.delta.Holds w := fun w => by rw [hd]; rfl
  refine ⟨t', ht', ?_, ⟨fun w => ?_, fun c => ?_⟩⟩
  · refine ⟨hwf, h.represents.write hends hrest h.wellFormed hwf ?_, hw, ?_, ?_, hf⟩
    · intro v; rw [hh]; simp [ha]
    · intro c hcr
      rw [hc]
      rcases (hret c).1 hcr with rfl | hcr
      · exact if_pos rfl
      · rw [if_neg (hne c hcr), h.retracted c hcr]
    · rw [hd]; exact h.deltaClean
  · rw [hh]; simp
  · rw [hret, List.mem_singleton, Redo.retract.injEq, or_comm]

/-- The close of the open period alone ends the key, as a delete without a tombstone. -/
theorem close_step (h : Stores t sv H) (hp : p ∈ H.periodsOf k) (hlive : p.stop = none)
    (hwf : (H.write k { e with value := none }).WellFormed)
    (hcl : (KeyPeriod.closeBy k p e).Encodable) (b : Bool) :
    ∃ t', applyRedo b t (.close (KeyPeriod.closeBy k p e)) = (t', .ok ()) ∧
      Stores t' sv (H.write k { e with value := none }) := by
  obtain ⟨t', ht', hd, hw, hf, hc⟩ := applyRedo_close h.writeOnce h.indexClean hcl
    (h.closeOf_live hp hlive) b
  obtain ⟨hends, hrest⟩ := h.close_spec (e := e) hp hlive hc
  refine ⟨t', ht', hwf, h.represents.write hends hrest h.wellFormed hwf ?_, hw, ?_,
    hd ▸ h.deltaClean, hf⟩
  · intro v; rw [hd]; simp
  · intro c hcr
    rw [hd] at hcr
    rw [hc, if_neg, h.retracted c hcr]
    intro heq
    have := h.retracted c hcr
    rw [heq, KeyPeriod.closeBy_target, h.closeOf_live hp hlive] at this
    cases this

/-- **Applying the redo set of accepted writes** succeeds, with or without spilling, and takes a
table that stores `H` to one that stores `H'`. -/
theorem applyRedos (h : Stores t sv H) {rs : List Redo} {H' : History} (hw : Writes H rs H')
    (b : Bool) :
    ∃ t', applyRedos b t rs = (t', .ok ()) ∧ Stores t' sv H' ∧ Staged t t' rs := by
  induction hw generalizing t with
  | nil H => exact ⟨t, rfl, h, ⟨fun w => by simp, fun c => by simp⟩⟩
  | insert hdead ha hwf henc _ ih =>
    obtain ⟨t₁, ht₁, hs₁, hst₁⟩ := h.insert_step hdead ha hwf henc b
    obtain ⟨t', ht', hs', hst'⟩ := ih hs₁
    exact ⟨t', by simp only [SteleDb.applyRedos, ht₁, ht'], hs', hst₁.trans hst'⟩
  | update hp hlive ha hwf hcl henc _ ih =>
    obtain ⟨t₁, ht₁, hs₁, hst₁⟩ := h.update_step hp hlive ha hwf hcl henc b
    obtain ⟨t', ht', hs', hst'⟩ := ih hs₁
    refine ⟨t', (applyRedos_append b t [_, _] _).trans ?_, hs', hst₁.trans hst'⟩
    rw [ht₁]
    exact ht'
  | delete hp hlive ha hwf hcl _ ih =>
    obtain ⟨t₁, ht₁, hs₁, hst₁⟩ := h.delete_step hp hlive ha hwf hcl b
    obtain ⟨t', ht', hs', hst'⟩ := ih hs₁
    exact ⟨t', by simp only [SteleDb.applyRedos, ht₁, ht'], hs', hst₁.trans hst'⟩

end Stores

/-! ### Staging a write -/

/-- The event of a write at `now`. -/
def keyEvent (now : SystemTimeMicros) (txnId : TxnId) (principal : Bytes)
    (value : Option (Seq × Option Bytes)) : KeyEvent :=
  ⟨now, ⟨txnId, now, principal⟩, value⟩

/-- The key has an open period. -/
def History.Live (H : History) (k : BusinessKey) : Prop := ∃ p ∈ H.periodsOf k, p.stop = none

theorem History.not_live_iff {H : History} {k : BusinessKey} :
    ¬ H.Live k ↔ ∀ p ∈ H.periodsOf k, p.stop ≠ none := by
  simp only [History.Live, not_exists, not_and, ne_eq]

theorem SysTimeWriter.nextCommitTs_of_le {w : SysTimeWriter} {now : SystemTimeMicros}
    (hprev : ∀ prev ∈ w.lastCommit, prev ≤ now) (hnow : now < systemTimeOpen) :
    w.nextCommitTs now = (⟨some now⟩, .ok now) := by
  have hreg : ¬ (w.lastCommit.any fun prev => now < prev) = true := by
    cases hl : w.lastCommit with
    | none => simp
    | some prev => simpa using hprev prev hl
  rw [nextCommitTs, if_neg hreg, if_neg (not_le.2 hnow)]

theorem SysTimeWriter.nextCommitTs_cases (w : SysTimeWriter) (now : SystemTimeMicros) :
    (∃ e, w.nextCommitTs now = (w, .error e)) ∨
      (w.nextCommitTs now = (⟨some now⟩, .ok now) ∧ (∀ prev ∈ w.lastCommit, prev ≤ now) ∧
        now < systemTimeOpen) := by
  by_cases hprev : ∀ prev ∈ w.lastCommit, prev ≤ now
  · by_cases hnow : now < systemTimeOpen
    · exact .inr ⟨nextCommitTs_of_le hprev hnow, hprev, hnow⟩
    · refine .inl ⟨.timeExhausted, ?_⟩
      have hreg : ¬ (w.lastCommit.any fun prev => now < prev) = true := by
        cases hl : w.lastCommit with
        | none => simp
        | some prev => simpa using hprev prev hl
      rw [nextCommitTs, if_neg hreg, if_pos (not_lt.1 hnow)]
  · simp only [not_forall] at hprev
    obtain ⟨prev, hl, hlt⟩ := hprev
    refine .inl ⟨.clockRegressed, ?_⟩
    rw [nextCommitTs, if_pos]
    rw [Option.mem_def.1 hl]
    simpa using hlt

namespace Stores

variable {t : Tiers} {sv : List Version} {H : History} {w : SysTimeWriter}
  {now : SystemTimeMicros} {key : BusinessKey} {payload : Option Bytes} {seq : Seq}
  {txnId : TxnId} {principal : Bytes}

section

variable (h : Stores t sv H) (hprev : ∀ prev ∈ w.lastCommit, prev ≤ now)
  (hnow : now < systemTimeOpen) (hle : ∀ e ∈ H key, e.instant ≤ now)

include h hprev hnow hle

/-- An insert is refused on a live key, and otherwise stages one version. -/
theorem stageInsert :
    (H.Live key → w.stageInsert now t sv key payload seq txnId principal =
      (⟨some now⟩, .error .keyExists)) ∧
    (¬ H.Live key → w.stageInsert now t sv key payload seq txnId principal =
      (⟨some now⟩, .ok (now, [.insert (openVersion key now seq payload txnId principal)]))) := by
  constructor
  · rintro ⟨p, hp, hst⟩
    rw [SysTimeWriter.stageInsert, SysTimeWriter.nextCommitTs_of_le hprev hnow]
    simp only [(h.resolveLive_now hnow hle).2 ⟨p, hp, hst, rfl⟩]
  · intro hd
    rw [SysTimeWriter.stageInsert, SysTimeWriter.nextCommitTs_of_le hprev hnow]
    simp only [(h.resolveLive_eq_none hnow hle).2 (History.not_live_iff.1 hd)]

/-- An update is refused on a key that is not live, and otherwise closes the open period and
stages one version. -/
theorem stageUpdate :
    (¬ H.Live key → w.stageUpdate now t sv key payload seq txnId principal =
      (⟨some now⟩, .error .keyNotFound)) ∧
    ∀ p ∈ H.periodsOf key, p.stop = none →
      w.stageUpdate now t sv key payload seq txnId principal =
        (⟨some now⟩, .ok (now,
          [.close (KeyPeriod.closeBy key p (keyEvent now txnId principal (some (seq, payload)))),
            .insert (openVersion key now seq payload txnId principal)])) := by
  constructor
  · intro hd
    rw [SysTimeWriter.stageUpdate, SysTimeWriter.nextCommitTs_of_le hprev hnow]
    simp only [(h.resolveLive_eq_none hnow hle).2 (History.not_live_iff.1 hd)]
  · intro p hp hst
    rw [SysTimeWriter.stageUpdate, SysTimeWriter.nextCommitTs_of_le hprev hnow]
    simp only [(h.resolveLive_now hnow hle).2 ⟨p, hp, hst, rfl⟩]
    rfl

/-- A delete is refused on a key that is not live, and otherwise retracts the open period. -/
theorem stageDelete :
    (¬ H.Live key → w.stageDelete now t sv key txnId principal =
      (⟨some now⟩, .error .keyNotFound)) ∧
    ∀ p ∈ H.periodsOf key, p.stop = none → w.stageDelete now t sv key txnId principal =
      (⟨some now⟩, .ok (now,
        [.retract (KeyPeriod.closeBy key p (keyEvent now txnId principal none))])) := by
  constructor
  · intro hd
    rw [SysTimeWriter.stageDelete, SysTimeWriter.nextCommitTs_of_le hprev hnow]
    simp only [(h.resolveLive_eq_none hnow hle).2 (History.not_live_iff.1 hd)]
  · intro p hp hst
    rw [SysTimeWriter.stageDelete, SysTimeWriter.nextCommitTs_of_le hprev hnow]
    simp only [(h.resolveLive_now hnow hle).2 ⟨p, hp, hst, rfl⟩]
    rfl

end

end Stores

end SteleDb
