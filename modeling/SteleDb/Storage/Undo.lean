import SteleDb.Storage.Dml
import SteleDb.Storage.Writes

/-!
# Taking back a transaction

The writes of an open transaction are applied in memory before the transaction is logged.  When it
is aborted, or its record does not reach the log, they are undone one by one.  Undoing has to be
exact, also for a statement that was applied in part: an update closes the live version before the
new one can be refused.

* `StagedAs H k e redos` : `redos` is what a write of `k` resolves to on a table that stores `H`;
* `StagedAs.undo` : whatever part of it is applied, undoing it restores the tiers;
* `Stores.undo` : undoing a run of accepted writes restores the tiers.

Restored means equal in everything a read can see (`Tiers.Same`): the byte counts that decide when
to spill may differ, because they saturate.
-/

namespace SteleDb

open Timeline

/-- The tiers hold the same records in the same places. -/
structure Tiers.Same (t t' : Tiers) : Prop where
  rows : t.delta.mem.rows = t'.delta.mem.rows
  spills : t.delta.liveSpills = t'.delta.liveSpills
  retractions : t.delta.retractions = t'.delta.retractions
  deltaFaults : t.delta.faults = t'.delta.faults
  closes : t.index.mem = t'.index.mem
  indexSpills : t.index.liveSpills = t'.index.liveSpills
  indexFaults : t.index.faults = t'.index.faults

namespace Tiers.Same

variable {t t' t'' : Tiers}

theorem refl (t : Tiers) : t.Same t := ⟨rfl, rfl, rfl, rfl, rfl, rfl, rfl⟩

theorem trans (h : t.Same t') (h' : t'.Same t'') : t.Same t'' :=
  ⟨h.rows.trans h'.rows, h.spills.trans h'.spills, h.retractions.trans h'.retractions,
    h.deltaFaults.trans h'.deltaFaults, h.closes.trans h'.closes,
    h.indexSpills.trans h'.indexSpills, h.indexFaults.trans h'.indexFaults⟩

theorem holds (h : t.Same t') (v : Version) : t.delta.Holds v ↔ t'.delta.Holds v := by
  rw [Delta.Holds, Delta.Holds, Delta.spillRows, Delta.spillRows, h.rows, h.spills]

theorem has (h : t.Same t') (c : Close) : t.index.Has c ↔ t'.index.Has c := by
  rw [ValidityIndex.Has, ValidityIndex.Has, ValidityIndex.spillCloses, ValidityIndex.spillCloses,
    h.closes, h.indexSpills]

theorem closeOf (h : t.Same t') : t.index.closeOf = t'.index.closeOf := by
  funext i
  rw [ValidityIndex.closeOf, ValidityIndex.closeOf, h.closes, h.indexSpills]

/-- The same records store the same histories. -/
theorem stores (h : t.Same t') {sv : List Version} {H : History} (hs : Stores t' sv H) :
    Stores t sv H where
  wellFormed := hs.wellFormed
  represents := hs.represents.congr (fun v => by rw [h.holds]) fun i => by rw [h.closeOf]
  writeOnce := hs.writeOnce.congr h.has
  retracted := by rw [h.retractions, h.closeOf]; exact hs.retracted
  deltaClean := by rw [h.deltaFaults]; exact hs.deltaClean
  indexClean := by rw [h.indexFaults]; exact hs.indexClean

end Tiers.Same

/-! ### One entry -/

theorem MemTier.rows_remove (m : MemTier) (i : VersionId) : (m.remove i).rows = m.rows.erase i :=
  KeyedMap.ext_mem fun _ => mem_remove.trans KeyedMap.mem_erase.symm

theorem ValidityIndex.mem_removeClose (ix : ValidityIndex) (i : VersionId) :
    (ix.removeClose i).mem = ix.mem.erase i := by
  unfold removeClose
  cases h : ix.mem.find? i with
  | some c => rfl
  | none => exact (KeyedMap.erase_of_notMem (KeyedMap.find?_eq_none.1 h)).symm

theorem ValidityIndex.liveSpills_removeClose (ix : ValidityIndex) (i : VersionId) :
    (ix.removeClose i).liveSpills = ix.liveSpills ∧ (ix.removeClose i).faults = ix.faults := by
  unfold removeClose
  cases ix.mem.find? i <;> exact ⟨rfl, rfl⟩

/-- Nothing in the tiers carries the identity the entry is filed under. -/
def Redo.Fresh (t : Tiers) : Redo → Prop
  | .insert v => ∀ w ∈ t.delta.mem.rows, w.id ≠ v.id
  | .close c => t.index.closeOf c.target = none
  | .retract c => t.index.closeOf c.target = none ∧ ∀ c' ∈ t.delta.retractions, c'.target ≠ c.target

theorem undoRedo_same {t t' : Tiers} (h : t.Same t') (r : Redo) :
    (undoRedo t r).Same (undoRedo t' r) := by
  have hcl : ∀ i, (t.index.removeClose i).mem = (t'.index.removeClose i).mem := fun i => by
    rw [ValidityIndex.mem_removeClose, ValidityIndex.mem_removeClose, h.closes]
  have hsp : ∀ i, (t.index.removeClose i).liveSpills = (t'.index.removeClose i).liveSpills :=
    fun i => by
      rw [(ValidityIndex.liveSpills_removeClose _ i).1,
        (ValidityIndex.liveSpills_removeClose _ i).1, h.indexSpills]
  have hfa : ∀ i, (t.index.removeClose i).faults = (t'.index.removeClose i).faults := fun i => by
    rw [(ValidityIndex.liveSpills_removeClose _ i).2, (ValidityIndex.liveSpills_removeClose _ i).2,
      h.indexFaults]
  cases r with
  | insert v =>
    refine ⟨?_, h.spills, h.retractions, h.deltaFaults, h.closes, h.indexSpills, h.indexFaults⟩
    change (t.delta.mem.remove v.id).rows = (t'.delta.mem.remove v.id).rows
    rw [MemTier.rows_remove, MemTier.rows_remove, h.rows]
  | close c => exact ⟨h.rows, h.spills, h.retractions, h.deltaFaults, hcl _, hsp _, hfa _⟩
  | retract c =>
    refine ⟨h.rows, h.spills, ?_, h.deltaFaults, hcl _, hsp _, hfa _⟩
    change t.delta.retractions.erase c.target = t'.delta.retractions.erase c.target
    rw [h.retractions]

theorem undo_cons (t : Tiers) (r : Redo) (rs : List Redo) :
    undo t (r :: rs) = undoRedo (undo t rs) r := by
  simp [undo, List.foldl_append]

theorem undo_append (t : Tiers) (rs rs' : List Redo) :
    undo t (rs ++ rs') = undo (undo t rs') rs := by
  simp [undo, List.foldl_append]

theorem undo_same {t t' : Tiers} (h : t.Same t') (rs : List Redo) :
    (undo t rs).Same (undo t' rs) := by
  induction rs with
  | nil => exact h
  | cons r rs ih => rw [undo_cons, undo_cons]; exact undoRedo_same ih r

theorem notMem_of_closeOf {ix : ValidityIndex} {i : VersionId} (h : ix.closeOf i = none) :
    ∀ c ∈ ix.mem, c.target ≠ i := by
  refine KeyedMap.find?_eq_none.1 ?_
  unfold ValidityIndex.closeOf at h
  cases hf : ix.mem.find? i with
  | none => rfl
  | some c => rw [hf] at h; cases h

/-- Undoing an entry that was not applied changes nothing. -/
theorem undoRedo_of_fresh {t : Tiers} {r : Redo} (h : r.Fresh t) : (undoRedo t r).Same t := by
  have hcl : ∀ i, t.index.closeOf i = none → (t.index.removeClose i).mem = t.index.mem :=
    fun i hi => by
    rw [ValidityIndex.mem_removeClose, KeyedMap.erase_of_notMem (notMem_of_closeOf hi)]
  have hrest := ValidityIndex.liveSpills_removeClose t.index
  cases r with
  | insert v =>
    refine ⟨?_, rfl, rfl, rfl, rfl, rfl, rfl⟩
    exact (MemTier.rows_remove _ _).trans (KeyedMap.erase_of_notMem h)
  | close c => exact ⟨rfl, rfl, rfl, rfl, hcl _ h, (hrest _).1, (hrest _).2⟩
  | retract c =>
    exact ⟨rfl, rfl, KeyedMap.erase_of_notMem h.2, rfl, hcl _ h.1, (hrest _).1, (hrest _).2⟩

theorem ValidityIndex.insertCloseInner_of_none {ix : ValidityIndex} {c : Close}
    (h : ix.closeOf c.target = none) :
    (∃ n, ix.insertCloseInner c false =
      ({ ix with byteSize := n, mem := ix.mem.insert c }, .ok ())) ∨
      ∃ e, ix.insertCloseInner c false = (ix, .error e) := by
  by_cases hc : c.Encodable
  · exact .inl ⟨_, insertCloseResident_eq hc h⟩
  · exact .inr ⟨_, insertCloseInner_of_not_encodable hc ix false⟩

/-- **Undoing one entry**, whether it was applied or refused, restores the tiers. -/
theorem undoRedo_applyRedo {t : Tiers} {r : Redo} (h : r.Fresh t) :
    (undoRedo (applyRedo false t r).1 r).Same t := by
  have hcl : ∀ {c : Close} {n : ℕ}, t.index.closeOf c.target = none →
      (({ t.index with byteSize := n, mem := t.index.mem.insert c } :
        ValidityIndex).removeClose c.target).mem = t.index.mem := fun {c n} hc => by
    rw [ValidityIndex.mem_removeClose]
    exact KeyedMap.erase_insert (notMem_of_closeOf hc)
  cases r with
  | insert v =>
    by_cases hv : v.Encodable
    · rw [applyRedo, show t.delta.insertInner v false = _ from Delta.insertResident_eq hv]
      refine ⟨?_, rfl, rfl, rfl, rfl, rfl, rfl⟩
      exact (MemTier.rows_remove _ _).trans (KeyedMap.erase_insert h)
    · rw [applyRedo, Delta.insertInner_of_not_encodable hv]
      exact undoRedo_of_fresh h
  | close c =>
    rcases ValidityIndex.insertCloseInner_of_none h with ⟨n, hc⟩ | ⟨e, hc⟩
    · rw [applyRedo, hc]
      exact ⟨rfl, rfl, rfl, rfl, hcl h, (ValidityIndex.liveSpills_removeClose _ _).1,
        (ValidityIndex.liveSpills_removeClose _ _).2⟩
    · rw [applyRedo, hc]
      exact undoRedo_of_fresh h
  | retract c =>
    rcases ValidityIndex.insertCloseInner_of_none h.1 with ⟨n, hc⟩ | ⟨e, hc⟩
    · rw [applyRedo, hc]
      exact ⟨rfl, rfl, KeyedMap.erase_insert h.2, rfl, hcl h.1,
        (ValidityIndex.liveSpills_removeClose _ _).1, (ValidityIndex.liveSpills_removeClose _ _).2⟩
    · rw [applyRedo, hc]
      exact undoRedo_of_fresh h

/-! ### One write -/

/-- `redos` is what a write of `k` with the event `e` resolves to on a table that stores `H`. -/
inductive StagedAs (H : History) (k : BusinessKey) (e : KeyEvent) : List Redo → Prop
  | insert {a : Seq × Option Bytes} (hdead : ¬ H.Live k) (ha : e.value = some a) :
      StagedAs H k e [.insert (Version.mkOpen k e.instant a.1 e.author a.2)]
  | update {a : Seq × Option Bytes} {p : KeyPeriod} (hp : p ∈ H.periodsOf k) (hlive : p.stop = none)
      (ha : e.value = some a) :
      StagedAs H k e [.close (KeyPeriod.closeBy k p e),
        .insert (Version.mkOpen k e.instant a.1 e.author a.2)]
  | delete {p : KeyPeriod} (hp : p ∈ H.periodsOf k) (hlive : p.stop = none) (ha : e.value = none) :
      StagedAs H k e [.retract (KeyPeriod.closeBy k p e)]

theorem Redo.encodable_of_encodedLen {r : Redo} {m : ℕ} (h : r.encodedLen = .ok m) :
    r.Encodable := by
  by_contra hn
  cases r <;>
  · simp only [Redo.Encodable] at hn
    simp [Redo.encodedLen, Version.checkEncodable, Close.checkEncodable, hn] at h

theorem encodable_of_encodeRedo {rs : List Redo} {n : ℕ} (h : encodeRedo rs = .ok n) :
    ∀ r ∈ rs, r.Encodable := by
  induction rs generalizing n with
  | nil => exact fun r hr => nomatch hr
  | cons r rs ih =>
    rw [encodeRedo] at h
    cases hl : r.encodedLen with
    | error e => rw [hl] at h; cases h
    | ok m =>
      rw [hl] at h
      cases hrs : encodeRedo rs with
      | error e => rw [hrs] at h; cases h
      | ok m' =>
        intro r' hr'
        rcases List.mem_cons.1 hr' with rfl | hr'
        · exact Redo.encodable_of_encodedLen hl
        · exact ih hrs r' hr'

theorem applyRedos_cons_ok {b : Bool} {t t' : Tiers} {r : Redo} {u : Unit}
    (h : applyRedo b t r = (t', .ok u)) (rs : List Redo) :
    applyRedos b t (r :: rs) = applyRedos b t' rs := by
  simp only [applyRedos, h]

theorem applyRedos_cons_error {b : Bool} {t t' : Tiers} {r : Redo} {e : SysTimeError}
    (h : applyRedo b t r = (t', .error e)) (rs : List Redo) :
    applyRedos b t (r :: rs) = (t', .error e) := by
  simp only [applyRedos, h]

theorem applyRedos_singleton_fst (b : Bool) (t : Tiers) (r : Redo) :
    (applyRedos b t [r]).1 = (applyRedo b t r).1 := by
  rcases h : applyRedo b t r with ⟨t', e | _⟩
  · rw [applyRedos_cons_error h]
  · rw [applyRedos_cons_ok h]
    rfl

/-- A redo set that was applied fits. -/
theorem encodable_of_applyRedos {b : Bool} {t t' : Tiers} {rs : List Redo} {u : Unit}
    (h : applyRedos b t rs = (t', .ok u)) : ∀ r ∈ rs, r.Encodable := by
  induction rs generalizing t with
  | nil => exact fun r hr => nomatch hr
  | cons r rs ih =>
    rcases hr : applyRedo b t r with ⟨t₁, e | _⟩
    · rw [applyRedos_cons_error hr] at h; cases h
    · rw [applyRedos_cons_ok hr] at h
      have hfit : r.Encodable := by
        by_contra hn
        cases r <;>
        · simp only [Redo.Encodable] at hn
          simp [applyRedo, Delta.insertInner_of_not_encodable,
            ValidityIndex.insertCloseInner_of_not_encodable, hn] at hr
      intro r' hr'
      rcases List.mem_cons.1 hr' with rfl | hr'
      · exact hfit
      · exact ih h r' hr'

namespace StagedAs

variable {H : History} {k : BusinessKey} {e : KeyEvent} {rs : List Redo} {t : Tiers}
  {sv : List Version}

/-- A write that fits is an accepted one. -/
theorem writes (h : StagedAs H k e rs) (hfit : ∀ r ∈ rs, r.Encodable)
    (hwf : (H.write k e).WellFormed) : Writes H rs (H.write k e) := by
  cases h with
  | insert hdead ha =>
    exact .insert (History.not_live_iff.1 hdead) ha hwf (hfit (.insert _) (by simp)) (.nil _)
  | update hp hlive ha =>
    exact .update hp hlive ha hwf (hfit (.close _) (by simp)) (hfit (.insert _) (by simp)) (.nil _)
  | delete hp hlive ha => exact .delete hp hlive ha hwf (hfit (.retract _) (by simp)) (.nil _)

theorem fresh_insert (hs : Stores t sv H) {a : Seq × Option Bytes} (ha : e.value = some a)
    (hwf : (H.write k e).WellFormed) :
    (Redo.insert (Version.mkOpen k e.instant a.1 e.author a.2)).Fresh t :=
  fun _ hw => hs.fresh ha hwf (.inl (.inl hw))

/-- **Undoing one write**, applied in full, in part or not at all, restores the tiers. -/
theorem undo (h : StagedAs H k e rs) (hs : Stores t sv H) (hwf : (H.write k e).WellFormed) :
    (SteleDb.undo (applyRedos false t rs).1 rs).Same t := by
  cases h with
  | @insert a hdead ha =>
    have hf := fresh_insert hs ha hwf
    rw [applyRedos_singleton_fst]
    exact undoRedo_applyRedo hf
  | @update a p hp hlive ha =>
    have hf := fresh_insert hs ha hwf
    have hfc : (Redo.close (KeyPeriod.closeBy k p e)).Fresh t := hs.closeOf_live hp hlive
    have hu := undoRedo_applyRedo hfc
    rcases hac : applyRedo false t (.close (KeyPeriod.closeBy k p e)) with ⟨t₁, err | _⟩
    · rw [applyRedos_cons_error hac]
      -- the close is refused: the tiers are as before
      have ht₁ : t₁ = t := by
        rcases ValidityIndex.insertCloseInner_of_none hfc with ⟨n, hc⟩ | ⟨err', hc⟩ <;>
          rw [applyRedo, hc] at hac <;> cases hac
        rfl
      subst ht₁
      rw [undo_cons]
      exact (undoRedo_same (undoRedo_of_fresh hf) _).trans (undoRedo_of_fresh hfc)
    · rw [hac] at hu
      -- a close does not touch the delta tier
      have hd : t₁.delta = t.delta := by
        rcases ValidityIndex.insertCloseInner_of_none hfc with ⟨n, hc⟩ | ⟨err', hc⟩ <;>
          rw [applyRedo, hc] at hac <;> cases hac
        rfl
      have hf₁ : (Redo.insert (Version.mkOpen k e.instant a.1 e.author a.2)).Fresh t₁ := by
        rw [Redo.Fresh, hd]; exact hf
      rw [applyRedos_cons_ok hac, undo_cons, applyRedos_singleton_fst]
      exact (undoRedo_same (undoRedo_applyRedo hf₁) _).trans hu
  | @delete p hp hlive ha =>
    have hne : ∀ c ∈ t.delta.retractions, c.target ≠ (KeyPeriod.closeBy k p e).target := by
      intro c hcr heq
      have := hs.retracted c hcr
      rw [heq, KeyPeriod.closeBy_target, hs.closeOf_live hp hlive] at this
      cases this
    have hf : (Redo.retract (KeyPeriod.closeBy k p e)).Fresh t := ⟨hs.closeOf_live hp hlive, hne⟩
    rw [applyRedos_singleton_fst]
    exact undoRedo_applyRedo hf

end StagedAs

/-! ### A run of accepted writes -/

namespace Writes

variable {H H' : History} {rs : List Redo}

theorem wellFormed (h : Writes H rs H') (hH : H.WellFormed) : H'.WellFormed := by
  induction h with
  | nil H => exact hH
  | insert hdead ha hwf henc _ ih => exact ih hwf
  | update hp hlive ha hwf hcl henc _ ih => exact ih hwf
  | delete hp hlive ha hwf hcl _ ih => exact ih hwf

/-- Histories only grow. -/
theorem subset (h : Writes H rs H') : ∀ k, ∀ ev ∈ H k, ev ∈ H' k := by
  have hstep : ∀ {H : History} {k : BusinessKey} {e : KeyEvent}, ∀ k', ∀ ev ∈ H k',
      ev ∈ H.write k e k' := by
    intro H k e k' ev hev
    by_cases hk : k' = k
    · subst hk; rw [History.write_self]; exact List.mem_cons_of_mem _ hev
    · rwa [History.write_of_ne hk]
  induction h with
  | nil H => exact fun k ev hev => hev
  | insert hdead ha hwf henc _ ih => exact fun k ev hev => ih k ev (hstep k ev hev)
  | update hp hlive ha hwf hcl henc _ ih => exact fun k ev hev => ih k ev (hstep k ev hev)
  | delete hp hlive ha hwf hcl _ ih => exact fun k ev hev => ih k ev (hstep k ev hev)

theorem asserts (h : Writes H rs H') {v : Version} :
    H'.Asserts v ↔ H.Asserts v ∨ Redo.insert v ∈ rs := by
  induction h with
  | nil H => simp
  | insert hdead ha hwf henc _ ih =>
    rw [ih, History.asserts_write, ha, List.mem_cons]
    simp [or_assoc]
  | update hp hlive ha hwf hcl henc _ ih =>
    rw [ih, History.asserts_write, ha, List.mem_cons, List.mem_cons]
    simp [or_assoc]
  | delete hp hlive ha hwf hcl _ ih =>
    rw [ih, History.asserts_write, ha, List.mem_cons]
    simp

/-- The tombstones of a run are those of its deletes. -/
theorem retracts (h : Writes H rs H') {c : Close} (hH : H.WellFormed) :
    H'.Retracts c ↔ H.Retracts c ∨ Redo.retract c ∈ rs := by
  induction h with
  | nil H => simp
  | insert hdead ha hwf henc _ ih =>
    rw [ih hwf, History.retracts_write, ha, List.mem_cons]
    simp
  | update hp hlive ha hwf hcl henc _ ih =>
    rw [ih hwf, History.retracts_write, ha, List.mem_cons, List.mem_cons]
    simp
  | @delete H H' redos k e p hp hlive ha hwf hcl _ ih =>
    -- the open period is the only one
    have hone : (∃ q ∈ H.periodsOf k, q.stop = none ∧ KeyPeriod.closeBy k q e = c) ↔
        c = KeyPeriod.closeBy k p e := by
      constructor
      · rintro ⟨q, hq, hqn, rfl⟩
        rcases hH.periods_trichotomy hq hp with rfl | ⟨-, u, hu, -⟩ | ⟨-, u, hu, -⟩
        · rfl
        · rw [hqn] at hu; cases hu
        · rw [hlive] at hu; cases hu
      · rintro rfl; exact ⟨p, hp, hlive, rfl⟩
    rw [ih hwf, History.retracts_write, ha, List.mem_cons, hone, Redo.retract.injEq]
    simp [or_assoc]

/-- Every end an accepted write makes fits in its frame. -/
theorem closesFit (h : Writes H rs H') (hH : H.WellFormed) (hfit : H.ClosesFit) :
    H'.ClosesFit := by
  induction h with
  | nil H => exact hfit
  | insert hdead ha hwf henc _ ih =>
    refine ih hwf fun c hc => ?_
    rcases History.closes_write.1 hc with hc | ⟨p, hp, hst, rfl⟩
    · exact hfit c hc
    · exact absurd hst (hdead p hp)
  | update hp hlive ha hwf hcl henc _ ih =>
    refine ih hwf fun c hc => ?_
    rcases History.closes_write.1 hc with hc | ⟨q, hq, hst, rfl⟩
    · exact hfit c hc
    · exact hcl
  | delete hp hlive ha hwf hcl _ ih =>
    refine ih hwf fun c hc => ?_
    rcases History.closes_write.1 hc with hc | ⟨q, hq, hst, rfl⟩
    · exact hfit c hc
    · exact hcl

end Writes

/-- **Undoing a run of accepted writes** restores the tiers. -/
theorem Stores.undo {t : Tiers} {sv : List Version} {H H' : History} {rs : List Redo}
    (hs : Stores t sv H) (hw : Writes H rs H') :
    (SteleDb.undo (SteleDb.applyRedos false t rs).1 rs).Same t := by
  -- one write, then the rest of the run
  have hcons : ∀ {k e H' rs rs'} {t : Tiers} {H : History}, Stores t sv H → StagedAs H k e rs →
      Writes H rs (H.write k e) → (H.write k e).WellFormed →
      (∀ {t : Tiers}, Stores t sv (H.write k e) →
        (SteleDb.undo (SteleDb.applyRedos false t rs').1 rs').Same t) →
      Writes (H.write k e) rs' H' →
      (SteleDb.undo (SteleDb.applyRedos false t (rs ++ rs')).1 (rs ++ rs')).Same t := by
    intro k e H' rs rs' t H hs hst hw hwf ih _
    obtain ⟨t₁, ht₁, hs₁, -⟩ := hs.applyRedos hw false
    have hu := hst.undo hs hwf
    rw [applyRedos_append, ht₁, undo_append]
    rw [ht₁] at hu
    exact (undo_same (ih hs₁) rs).trans hu
  induction hw generalizing t with
  | nil H => exact Tiers.Same.refl t
  | insert hdead ha hwf henc rest ih =>
    have hst := StagedAs.insert (History.not_live_iff.2 hdead) ha
    exact hcons hs hst (.insert hdead ha hwf henc (.nil _)) hwf ih rest
  | update hp hlive ha hwf hcl henc rest ih =>
    exact hcons hs (.update hp hlive ha) (.update hp hlive ha hwf hcl henc (.nil _)) hwf ih rest
  | delete hp hlive ha hwf hcl rest ih =>
    exact hcons hs (.delete hp hlive ha) (.delete hp hlive ha hwf hcl (.nil _)) hwf ih rest

end SteleDb
