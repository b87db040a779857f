import SteleDb.Storage.Engine
import SteleDb.Storage.Undo

/-!
# Aborting a transaction

The writes of an open transaction are applied in memory, and every redo set is buffered before it
is applied.  An abort, and a commit whose record does not reach the log, undo the buffer entry by
entry; an aborted bulk load drops the delta tier instead.

Undoing is by identity: it removes whatever memory holds under the identity of an entry.  That is
exact as long as memory held nothing under it before (`Redo.Undoable`).  An entry that was refused
because the version had already ended is not of that kind: undoing it removes the end that was
there.

* `Engine.InReach` : the engines that any order of calls can reach, on any disk;
* `Engine.group_abort_restores` : an abort restores the tiers, for transactions of undoable writes
  and for bulk loads;
* `Engine.abort_forgets_end` : a clock behind the last commit breaks it.
-/

namespace SteleDb

/-! ### What is restored -/

/-- The tiers hold the same records in the same places, and count the same bytes. -/
structure Tiers.Restored (t t₀ : Tiers) : Prop where
  mem : t.delta.mem = t₀.delta.mem
  spills : t.delta.liveSpills = t₀.delta.liveSpills
  retractions : t.delta.retractions = t₀.delta.retractions
  closes : t.index.mem = t₀.index.mem
  indexSpills : t.index.liveSpills = t₀.index.liveSpills

/-- The tiers agree in what is staged, in the ends that are materialised and in the bytes they
count. -/
structure Tiers.Agrees (t t₀ : Tiers) : Prop where
  versions : t.delta.stagedVersions = t₀.delta.stagedVersions
  retractions : t.delta.stagedRetractions = t₀.delta.stagedRetractions
  closes : t.index.materialize = t₀.index.materialize
  bytes : t.delta.mem.byteSize = t₀.delta.mem.byteSize

/-- Undoing the entry takes nothing from the tiers: memory holds no row, no end and no tombstone
under its identity, and the row does not overflow the byte count. -/
def Redo.Undoable (t : Tiers) : Redo → Prop
  | .insert v => t.delta.mem.rows.find? v.id = none ∧ t.delta.mem.byteSize + v.encodedSize < 2 ^ 64
  | .close c => t.index.mem.find? c.target = none
  | .retract c => t.index.mem.find? c.target = none ∧ t.delta.retractions.find? c.target = none

instance (t : Tiers) : DecidablePred (Redo.Undoable t)
  | .insert v => inferInstanceAs (Decidable (t.delta.mem.rows.find? v.id = none ∧ _))
  | .close c => inferInstanceAs (Decidable (t.index.mem.find? c.target = none))
  | .retract c => inferInstanceAs (Decidable (t.index.mem.find? c.target = none ∧
      t.delta.retractions.find? c.target = none))

namespace Tiers.Restored

variable {t t' t'' : Tiers}

theorem refl (t : Tiers) : t.Restored t := ⟨rfl, rfl, rfl, rfl, rfl⟩

theorem trans (h : t.Restored t') (h' : t'.Restored t'') : t.Restored t'' :=
  ⟨h.mem.trans h'.mem, h.spills.trans h'.spills, h.retractions.trans h'.retractions,
    h.closes.trans h'.closes, h.indexSpills.trans h'.indexSpills⟩

theorem agrees (h : t.Restored t') : t.Agrees t' where
  versions := by
    rw [Delta.stagedVersions, Delta.stagedVersions, Delta.mergeStaged, Delta.mergeStaged,
      Delta.spillRows, Delta.spillRows, h.mem, h.spills]
  retractions := by rw [Delta.stagedRetractions, Delta.stagedRetractions, h.retractions]
  closes := by
    rw [ValidityIndex.materialize, ValidityIndex.materialize, ValidityIndex.spillCloses,
      ValidityIndex.spillCloses, h.closes, h.indexSpills]
  bytes := by rw [h.mem]

theorem undoRedo (h : t.Restored t') (r : Redo) :
    (SteleDb.undoRedo t r).Restored (SteleDb.undoRedo t' r) := by
  have hcl : ∀ i, (t.index.removeClose i).mem = (t'.index.removeClose i).mem := by
    intro i
    rw [ValidityIndex.mem_removeClose, ValidityIndex.mem_removeClose, h.closes]
  have hsp : ∀ i, (t.index.removeClose i).liveSpills = (t'.index.removeClose i).liveSpills := by
    intro i
    rw [(ValidityIndex.liveSpills_removeClose _ i).1, (ValidityIndex.liveSpills_removeClose _ i).1,
      h.indexSpills]
  cases r with
  | insert v =>
    refine ⟨?_, h.spills, h.retractions, h.closes, h.indexSpills⟩
    show t.delta.mem.remove v.id = t'.delta.mem.remove v.id
    rw [h.mem]
  | close c => exact ⟨h.mem, h.spills, h.retractions, hcl _, hsp _⟩
  | retract c =>
    refine ⟨h.mem, h.spills, ?_, hcl _, hsp _⟩
    show t.delta.retractions.erase c.target = t'.delta.retractions.erase c.target
    rw [h.retractions]

theorem undo (h : t.Restored t') (rs : List Redo) :
    (SteleDb.undo t rs).Restored (SteleDb.undo t' rs) := by
  induction rs with
  | nil => exact h
  | cons r rs ih =>
    rw [undo_cons, undo_cons]
    exact ih.undoRedo r

end Tiers.Restored

/-! ### One entry -/

theorem MemTier.remove_of_none {m : MemTier} {i : VersionId} (h : m.rows.find? i = none) :
    m.remove i = m := by
  rw [remove, h]

/-- A row that is new, and does not overflow the count, can be taken back. -/
theorem MemTier.remove_insert {m : MemTier} {v : Version} (h : m.rows.find? v.id = none)
    (hb : m.byteSize + v.encodedSize < 2 ^ 64) : (m.insert v).remove v.id = m := by
  have hfind : (m.rows.insert v).find? v.id = some v :=
    KeyedMap.find?_eq_some.2 ⟨KeyedMap.mem_insert.2 (.inl rfl), rfl⟩
  have hrows : (m.rows.insert v).erase v.id = m.rows :=
    KeyedMap.erase_insert (KeyedMap.find?_eq_none.1 h)
  have hbytes : saturatingAdd m.byteSize v.encodedSize - v.encodedSize = m.byteSize := by
    unfold saturatingAdd
    omega
  simp only [remove, insert, h, hfind, hrows, hbytes]

/-- Without leave to spill a close changes nothing or enters memory. -/
theorem ValidityIndex.insertCloseInner_resident (ix : ValidityIndex) (c : Close) :
    (∃ r, ix.insertCloseInner c false = (ix, r)) ∨
      ∃ n, ix.insertCloseInner c false =
        ({ ix with byteSize := n, mem := ix.mem.insert c }, .ok ()) := by
  unfold insertCloseInner
  cases c.checkEncodable with
  | error e => exact .inl ⟨_, rfl⟩
  | ok u =>
    cases ix.closeOf c.target with
    | none => exact .inr ⟨_, if_neg (by simp)⟩
    | some ci =>
      by_cases hci : ci = c.interval
      · exact .inl ⟨_, if_pos hci⟩
      · exact .inl ⟨_, if_neg hci⟩

/-- Undoing an entry that was not applied. -/
theorem Redo.Undoable.skip {t : Tiers} {r : Redo} (h : r.Undoable t) :
    (undoRedo t r).Restored t := by
  have hcl : ∀ i, t.index.mem.find? i = none → (t.index.removeClose i).mem = t.index.mem := by
    intro i hi
    rw [ValidityIndex.mem_removeClose, KeyedMap.erase_of_notMem (KeyedMap.find?_eq_none.1 hi)]
  have hsp := fun i => (ValidityIndex.liveSpills_removeClose t.index i).1
  cases r with
  | insert v => exact ⟨MemTier.remove_of_none h.1, rfl, rfl, rfl, rfl⟩
  | close c => exact ⟨rfl, rfl, rfl, hcl _ h, hsp _⟩
  | retract c =>
    exact ⟨rfl, rfl, KeyedMap.erase_of_notMem (KeyedMap.find?_eq_none.1 h.2), hcl _ h.1, hsp _⟩

/-- **Undoing one entry**, whether it was applied or refused. -/
theorem Redo.Undoable.undo {t : Tiers} {r : Redo} (h : r.Undoable t) :
    (undoRedo (applyRedo false t r).1 r).Restored t := by
  -- a close that entered memory leaves it again
  have hcl : ∀ {c : Close} {n : ℕ}, t.index.mem.find? c.target = none →
      (({ t.index with byteSize := n, mem := t.index.mem.insert c } :
        ValidityIndex).removeClose c.target).mem = t.index.mem := by
    intro c n hc
    rw [ValidityIndex.mem_removeClose]
    exact KeyedMap.erase_insert (KeyedMap.find?_eq_none.1 hc)
  cases r with
  | insert v =>
    by_cases hv : v.Encodable
    · rw [applyRedo, show t.delta.insertInner v false = _ from Delta.insertResident_eq hv]
      exact ⟨MemTier.remove_insert h.1 h.2, rfl, rfl, rfl, rfl⟩
    · rw [applyRedo, Delta.insertInner_of_not_encodable hv]
      exact h.skip
  | close c =>
    rcases t.index.insertCloseInner_resident c with ⟨r, hc⟩ | ⟨n, hc⟩
    · rw [applyRedo, hc]
      cases r <;> exact h.skip
    · rw [applyRedo, hc]
      exact ⟨rfl, rfl, rfl, hcl h, (ValidityIndex.liveSpills_removeClose _ _).1⟩
  | retract c =>
    rcases t.index.insertCloseInner_resident c with ⟨r, hc⟩ | ⟨n, hc⟩
    · rw [applyRedo, hc]
      cases r with
      | error e => exact h.skip
      | ok u =>
        -- the end was there, in a spill file: the tombstone alone is new
        refine ⟨rfl, rfl, KeyedMap.erase_insert (KeyedMap.find?_eq_none.1 h.2), ?_, ?_⟩
        · exact h.skip.closes
        · exact h.skip.indexSpills
    · rw [applyRedo, hc]
      exact ⟨rfl, rfl, KeyedMap.erase_insert (KeyedMap.find?_eq_none.1 h.2), hcl h.1,
        (ValidityIndex.liveSpills_removeClose _ _).1⟩

/-! ### One write -/

/-- What a write resolves to. -/
inductive Redo.OneWrite : DmlOp → List Redo → Prop
  | insert {valid : Option ValidInterval} {payload : Option Bytes} {seq : Seq} (v : Version) :
      OneWrite (.insert valid payload seq) [.insert v]
  | update {valid : Option ValidInterval} {payload : Option Bytes} {seq : Seq} (c : Close)
      (v : Version) : OneWrite (.update valid payload seq) [.close c, .insert v]
  | delete (c : Close) : OneWrite .delete [.retract c]

namespace SysTimeWriter

variable {w : SysTimeWriter} {now commit : SystemTimeMicros} {t : Tiers} {sv : List Version}
  {key : BusinessKey} {payload : Option Bytes} {seq : Seq} {txnId : TxnId} {principal : Bytes}
  {rs : List Redo}

theorem redos_stageInsert
    (h : (w.stageInsert now t sv key payload seq txnId principal).2 = .ok (commit, rs)) :
    ∃ v, rs = [.insert v] := by
  rw [stageInsert] at h
  rcases hts : w.nextCommitTs now with ⟨w', e | commit'⟩
  · rw [hts] at h; cases h
  · rw [hts] at h
    cases hl : resolveLive t sv key commit' with
    | some prior => simp only [hl] at h; cases h
    | none => simp only [hl] at h; cases h; exact ⟨_, rfl⟩

theorem redos_stageUpdate
    (h : (w.stageUpdate now t sv key payload seq txnId principal).2 = .ok (commit, rs)) :
    ∃ c v, rs = [.close c, .insert v] := by
  rw [stageUpdate] at h
  rcases hts : w.nextCommitTs now with ⟨w', e | commit'⟩
  · rw [hts] at h; cases h
  · rw [hts] at h
    cases hl : resolveLive t sv key commit' with
    | some prior => simp only [hl] at h; cases h; exact ⟨_, _, rfl⟩
    | none => simp only [hl] at h; cases h

theorem redos_stageDelete
    (h : (w.stageDelete now t sv key txnId principal).2 = .ok (commit, rs)) :
    ∃ c, rs = [.retract c] := by
  rw [stageDelete] at h
  rcases hts : w.nextCommitTs now with ⟨w', e | commit'⟩
  · rw [hts] at h; cases h
  · rw [hts] at h
    cases hl : resolveLive t sv key commit' with
    | some prior => simp only [hl] at h; cases h; exact ⟨_, rfl⟩
    | none => simp only [hl] at h; cases h

end SysTimeWriter

theorem Except.eq_ok_of_mapError {ε ε' α : Type*} {f : ε → ε'} {x : Except ε α} {a : α}
    (h : x.mapError f = .ok a) : x = .ok a := by
  cases x with
  | error e => cases h
  | ok b => cases h; rfl

theorem DmlWriter.oneWrite_stage {dw : DmlWriter} {t : Tiers} {sv : List Version} {w : DmlWrite}
    {st : SysTimeWriter} {commit : SystemTimeMicros} {rs : List Redo}
    (h : dw.stage t sv w = (st, .ok (commit, rs))) : Redo.OneWrite w.op rs := by
  have h₂ := congrArg Prod.snd h
  obtain ⟨now, key, txnId, principal, op⟩ := w
  cases op with
  | insert valid payload seq =>
    cases hf : framePayload dw.validTime valid payload with
    | error e => simp only [stage, hf] at h₂; cases h₂
    | ok framed =>
      simp only [stage, hf] at h₂
      obtain ⟨v, rfl⟩ := SysTimeWriter.redos_stageInsert (Except.eq_ok_of_mapError h₂)
      exact .insert v
  | update valid payload seq =>
    cases hf : framePayload dw.validTime valid payload with
    | error e => simp only [stage, hf] at h₂; cases h₂
    | ok framed =>
      simp only [stage, hf] at h₂
      obtain ⟨c, v, rfl⟩ := SysTimeWriter.redos_stageUpdate (Except.eq_ok_of_mapError h₂)
      exact .update c v
  | delete =>
    simp only [stage] at h₂
    obtain ⟨c, rfl⟩ := SysTimeWriter.redos_stageDelete (Except.eq_ok_of_mapError h₂)
    exact .delete c

/-- A close leaves the delta tier alone, and the index too when it is refused. -/
theorem applyRedo_close_resident (t : Tiers) (c : Close) :
    (applyRedo false t (.close c)).1.delta = t.delta ∧
      ((applyRedo false t (.close c)).2 ≠ .ok () → (applyRedo false t (.close c)).1 = t) := by
  rcases t.index.insertCloseInner_resident c with ⟨r, hc⟩ | ⟨n, hc⟩
  · rw [applyRedo, hc]
    cases r <;> exact ⟨rfl, fun _ => rfl⟩
  · rw [applyRedo, hc]
    exact ⟨rfl, fun h => absurd rfl h⟩

/-- **Undoing one write**, applied in full, in part or not at all. -/
theorem Redo.OneWrite.undo {t : Tiers} {op : DmlOp} {rs : List Redo} (h : OneWrite op rs)
    (hu : ∀ r ∈ rs, r.Undoable t) : (SteleDb.undo (applyRedos false t rs).1 rs).Restored t := by
  cases h with
  | insert v =>
    rw [applyRedos_singleton_fst]
    exact (hu (.insert v) (by simp)).undo
  | delete c =>
    rw [applyRedos_singleton_fst]
    exact (hu (.retract c) (by simp)).undo
  | update c v =>
    have hc : (Redo.close c).Undoable t := hu _ (by simp)
    have hv : (Redo.insert v).Undoable t := hu _ (by simp)
    obtain ⟨hdelta, hrefused⟩ := applyRedo_close_resident t c
    have hback := hc.undo
    rcases hac : applyRedo false t (.close c) with ⟨t₁, err | u⟩
    · -- the close is refused, and the new version is not reached
      rw [hac] at hrefused
      obtain rfl : t₁ = t := hrefused (by simp)
      rw [applyRedos_cons_error hac, undo_cons]
      exact (hv.skip.undoRedo _).trans hc.skip
    · rw [hac] at hdelta hback
      have hv₁ : (Redo.insert v).Undoable t₁ := by
        show t₁.delta.mem.rows.find? v.id = none ∧ t₁.delta.mem.byteSize + v.encodedSize < 2 ^ 64
        rw [hdelta]
        exact hv
      rw [applyRedos_cons_ok hac, undo_cons, applyRedos_singleton_fst]
      exact (hv₁.undo.undoRedo _).trans hback

namespace Engine

/-- What the write resolves to; nothing if it is refused. -/
def stagedRedos (e : Engine) (w : DmlWrite) : List Redo :=
  match e.writer.stage e.tiers e.sealedVersions w with
  | (_, .ok (_, redos)) => redos
  | (_, .error _) => []

/-- Undoing what the write resolves to takes nothing from the tiers that was there before it. -/
def Undoable (e : Engine) (w : DmlWrite) : Prop := ∀ r ∈ e.stagedRedos w, r.Undoable e.tiers

instance (e : Engine) (w : DmlWrite) : Decidable (e.Undoable w) :=
  inferInstanceAs (Decidable (∀ r ∈ e.stagedRedos w, r.Undoable e.tiers))

/-- Writes in order, whether or not they are refused. -/
def writeEach : Engine → List DmlWrite → Engine
  | e, [] => e
  | e, w :: ws => writeEach (e.write w).1 ws

/-- Every write is undoable when its turn comes. -/
def AllUndoable : Engine → List DmlWrite → Prop
  | _, [] => True
  | e, w :: ws => e.Undoable w ∧ AllUndoable (e.write w).1 ws

instance decidableAllUndoable : (e : Engine) → (ws : List DmlWrite) → Decidable (e.AllUndoable ws)
  | _, [] => inferInstanceAs (Decidable True)
  | e, w :: ws =>
    have := decidableAllUndoable (e.write w).1 ws
    inferInstanceAs (Decidable (e.Undoable w ∧ (e.write w).1.AllUndoable ws))

/-! ### A transaction -/

/-- The engine is inside a transaction whose buffer takes the tiers back to those of `e₀`. -/
structure TakesBack (e₀ e : Engine) : Prop where
  bulk : e.writer.groupBulk = false
  undone : ∃ rs, e.writer.group = some rs ∧ (undo e.tiers rs).Restored e₀.tiers

namespace TakesBack

variable {e₀ e : Engine}

theorem beginGroup (e : Engine) : TakesBack e e.beginGroup :=
  ⟨rfl, [], rfl, Tiers.Restored.refl _⟩

/-- One write of the transaction. -/
theorem write (h : TakesBack e₀ e) {w : DmlWrite} (hu : e.Undoable w) :
    TakesBack e₀ (e.write w).1 := by
  obtain ⟨rs, hg, hback⟩ := h.undone
  rcases hst : e.writer.stage e.tiers e.sealedVersions w with ⟨st, err | ⟨commit, redos⟩⟩
  · simp only [Engine.write, DmlWriter.write, hst]
    exact ⟨h.bulk, rs, hg, hback⟩
  · have hone := DmlWriter.oneWrite_stage hst
    have hstaged : e.stagedRedos w = redos := by rw [stagedRedos, hst]
    have hone' := hone.undo fun r hr => hu r (hstaged ▸ hr)
    -- the buffer is extended before the redo set is applied
    have hwrite : ∃ dw : DmlWriter, dw.groupBulk = false ∧ dw.group = some (rs ++ redos) ∧
        (e.write w).1 = { e with writer := dw, tiers := (applyRedos false e.tiers redos).1 } := by
      refine ⟨{ e.writer with writer := st, group := some (rs ++ redos) }, h.bulk, rfl, ?_⟩
      simp only [Engine.write, DmlWriter.write, hst, DmlWriter.logAndApply, hg, h.bulk,
        Bool.false_eq_true, if_false, applyResident]
      rcases applyRedos false e.tiers redos with ⟨t, err | u⟩ <;> rfl
    obtain ⟨dw, hbulk, hgroup, heq⟩ := hwrite
    rw [heq]
    refine ⟨hbulk, rs ++ redos, hgroup, ?_⟩
    rw [undo_append]
    exact (hone'.undo rs).trans hback

theorem writeEach {ws : List DmlWrite} (h : TakesBack e₀ e) (hu : e.AllUndoable ws) :
    TakesBack e₀ (e.writeEach ws) := by
  induction ws generalizing e with
  | nil => exact h
  | cons w ws ih => exact ih (h.write hu.1) hu.2

theorem abortGroup (h : TakesBack e₀ e) : e.abortGroup.tiers.Restored e₀.tiers := by
  obtain ⟨rs, hg, hback⟩ := h.undone
  simpa only [Engine.abortGroup, DmlWriter.abortGroup, h.bulk, hg, Bool.false_eq_true, if_false]
    using hback

/-- A commit whose record does not reach the log. -/
theorem finishGroup (h : TakesBack e₀ e) {txnId : Option TxnId} {err : DmlError}
    (herr : (appendGroupRecord e.writer.wal txnId (e.writer.group.getD [])).2 = .error err) :
    (e.finishGroup txnId).1.tiers.Restored e₀.tiers := by
  obtain ⟨rs, hg, hback⟩ := h.undone
  rw [hg, Option.getD_some] at herr
  simp only [Engine.finishGroup, DmlWriter.finishGroup, hg, Option.getD_some]
  by_cases hnil : rs.isEmpty = true
  · rw [if_pos hnil]
    rw [List.isEmpty_iff.1 hnil] at hback
    exact hback
  · rw [if_neg hnil]
    rcases happ : appendGroupRecord e.writer.wal txnId rs with ⟨wal, e' | u⟩
    · exact hback
    · rw [happ] at herr
      cases herr

end TakesBack

end Engine

/-! ### What the byte count counts -/

namespace MemTier

/-- Encoded size of the rows held. -/
def rowBytes (m : MemTier) : ℕ := (m.rows.values.map Version.encodedSize).sum

/-- The count is no more than the rows held; it is less once it has overflowed. -/
def Counted (m : MemTier) : Prop := m.byteSize ≤ m.rowBytes

theorem rowBytes_of_mem {m : MemTier} {v : Version} (h : v ∈ m.rows) :
    m.rowBytes = v.encodedSize + ((m.rows.erase v.id).values.map Version.encodedSize).sum := by
  rw [rowBytes, ((KeyedMap.values_perm_erase h).map _).sum_eq, List.map_cons, List.sum_cons]

theorem rowBytes_insert (m : MemTier) (v : Version) :
    (m.insert v).rowBytes =
      v.encodedSize + ((m.rows.erase v.id).values.map Version.encodedSize).sum := by
  rw [rowBytes_of_mem (m := m.insert v) (mem_insert.2 (.inl rfl))]
  show _ + (((m.rows.insert v).erase v.id).values.map Version.encodedSize).sum = _
  rw [KeyedMap.erase_insert_self]

theorem counted_new : new.Counted := Nat.zero_le _

theorem Counted.insert {m : MemTier} (h : m.Counted) (v : Version) : (m.insert v).Counted := by
  rw [Counted, rowBytes_insert]
  unfold Counted at h
  cases hf : m.rows.find? v.id with
  | none =>
    rw [KeyedMap.erase_of_notMem (KeyedMap.find?_eq_none.1 hf)]
    simp only [MemTier.insert, hf, saturatingAdd]
    rw [rowBytes] at h
    omega
  | some prev =>
    obtain ⟨hmem, hid⟩ := KeyedMap.find?_eq_some.1 hf
    have hsum := rowBytes_of_mem hmem
    rw [hid] at hsum
    have hsub : m.byteSize - prev.encodedSize ≤ m.rowBytes - prev.encodedSize :=
      Nat.sub_le_sub_right h _
    simp only [MemTier.insert, hf, saturatingAdd]
    omega

theorem Counted.remove {m : MemTier} (h : m.Counted) (i : VersionId) : (m.remove i).Counted := by
  unfold Counted at h
  cases hf : m.rows.find? i with
  | none => rw [MemTier.remove_of_none hf]; exact h
  | some prev =>
    obtain ⟨hmem, rfl⟩ := KeyedMap.find?_eq_some.1 hf
    have hsum := rowBytes_of_mem hmem
    simp only [MemTier.remove, hf, Counted]
    show m.byteSize - prev.encodedSize ≤ ((m.rows.erase prev.id).values.map Version.encodedSize).sum
    omega

end MemTier

/-- Inserting, with or without leave to spill. -/
theorem MemTier.Counted.insertInner {d : Delta} (h : d.mem.Counted) (v : Version) (b : Bool) :
    (d.insertInner v b).1.mem.Counted := by
  rw [Delta.insertInner]
  cases v.checkEncodable with
  | error e => exact h
  | ok u =>
    simp only
    split_ifs with hs
    · -- a spill empties memory, whether or not its file is written
      have hnew : d.spillInMemory.1.mem = MemTier.new := by
        rw [Delta.spillInMemory]
        split_ifs with hr
        · rfl
        · simp only
          cases d.faults.next <;> rfl
      rcases hsp : d.spillInMemory with ⟨d', e | u⟩
      · rw [hsp] at hnew
        show d'.mem.Counted
        rw [hnew]
        exact MemTier.counted_new
      · rw [hsp] at hnew
        show (d'.mem.insert v).Counted
        rw [hnew]
        exact MemTier.counted_new.insert v
    · exact h.insert v

theorem MemTier.Counted.applyRedo {t : Tiers} (h : t.delta.mem.Counted) (b : Bool) (r : Redo) :
    (applyRedo b t r).1.delta.mem.Counted := by
  cases r with
  | insert v =>
    have hins := h.insertInner v b
    rw [SteleDb.applyRedo]
    rcases hd : t.delta.insertInner v b with ⟨d, e | u⟩ <;> rw [hd] at hins <;> exact hins
  | close c =>
    rw [SteleDb.applyRedo]
    rcases t.index.insertCloseInner c b with ⟨ix, e | u⟩ <;> exact h
  | retract c =>
    rw [SteleDb.applyRedo]
    rcases t.index.insertCloseInner c b with ⟨ix, e | u⟩ <;> exact h

theorem MemTier.Counted.applyRedos {t : Tiers} (h : t.delta.mem.Counted) (b : Bool)
    (rs : List Redo) : (applyRedos b t rs).1.delta.mem.Counted := by
  induction rs generalizing t with
  | nil => exact h
  | cons r rs ih =>
    have hr := h.applyRedo b r
    rcases ha : SteleDb.applyRedo b t r with ⟨t', e | u⟩
    · rw [applyRedos_cons_error ha]
      rw [ha] at hr
      exact hr
    · rw [applyRedos_cons_ok ha]
      rw [ha] at hr
      exact ih hr

theorem MemTier.Counted.undo {t : Tiers} (h : t.delta.mem.Counted) (rs : List Redo) :
    (undo t rs).delta.mem.Counted := by
  induction rs with
  | nil => exact h
  | cons r rs ih =>
    rw [undo_cons]
    cases r with
    | insert v => exact ih.remove v.id
    | close c => exact ih
    | retract c => exact ih

theorem MemTier.Counted.recoverReplay {t : Tiers} (h : t.delta.mem.Counted)
    (committed : CommittedTxns) (fence at_ : ℕ) (rs : List WalRecord) :
    (recoverReplay committed fence at_ t rs).1.delta.mem.Counted := by
  induction rs generalizing t at_ with
  | nil => exact h
  | cons r rs ih =>
    cases r with
    | torn =>
      rw [SteleDb.recoverReplay]
      split_ifs <;> exact h
    | whole txnId redos =>
      rw [SteleDb.recoverReplay]
      split_ifs with hskip
      · exact ih h _
      · have happ := h.applyRedos true redos
        rcases ha : apply t redos with ⟨t', e | u⟩
        · rw [show SteleDb.applyRedos true t redos = _ from ha] at happ
          exact happ
        · rw [show SteleDb.applyRedos true t redos = _ from ha] at happ
          exact ih happ _

/-! ### Reachable engines -/

namespace Engine

/-- What calls on a table can reach, in any order, on a disk that fails as it likes; a recovery may
find any disk. -/
inductive InReach : Engine → Prop
  | opened (validTime : Bool) (delta : DeltaConfig) (index : ValidityConfig) (faults : TierFaults) :
      InReach (withFaults
        { writer := { validTime }, tiers := ⟨{ config := delta }, { config := index }⟩ } faults)
  | recovered {disk : Disk} {validTime : Bool} {committed : CommittedTxns} {e : Engine}
      (h : recoverWithCommits disk validTime committed = .ok e) (faults : TierFaults) :
      InReach (e.withFaults faults)
  | write {e : Engine} (h : InReach e) (w : DmlWrite) : InReach (e.write w).1
  | beginGroup {e : Engine} (h : InReach e) : InReach e.beginGroup
  | finishGroup {e : Engine} (h : InReach e) (txnId : Option TxnId) :
      InReach (e.finishGroup txnId).1
  | abortGroup {e : Engine} (h : InReach e) : InReach e.abortGroup
  | beginBulkGroup {e : Engine} (h : InReach e) : InReach e.beginBulkGroup
  | commitBulkChunk {e : Engine} (h : InReach e) (txnId : TxnId) :
      InReach (e.commitBulkChunk txnId).1
  | endBulkGroup {e : Engine} (h : InReach e) : InReach e.endBulkGroup
  | flush {e : Engine} (h : InReach e) : InReach e.flush.1
  | compact {e : Engine} (h : InReach e) : InReach e.compact.1
  | checkpoint {e : Engine} (h : InReach e) : InReach e.checkpoint.1

theorem tiers_tick (e : Engine) : e.tick.1.tiers = e.tiers := by
  rw [tick]
  rcases e.writer.wal.tick with ⟨wal, err | u⟩ <;> rfl

theorem tiers_store (e : Engine) (p : RecoveryPoint) : (e.store p).1.tiers = e.tiers := by
  rw [store]
  cases e.manifestFaults.next <;> rfl

theorem tiers_sealSegment (e : Engine) (idx : ℕ) (s : Segment) :
    (e.sealSegment idx s).1.tiers = e.tiers := by
  rw [sealSegment]
  cases e.segmentFaults.next <;> rfl

theorem tiers_checkpoint (e : Engine) : e.checkpoint.1.tiers = e.tiers := by
  have ht := e.tiers_tick
  rw [checkpoint]
  rcases htick : e.tick with ⟨e₁, err | u⟩ <;> rw [htick] at ht
  · exact ht
  · have hst := e₁.tiers_store ⟨e₁.replayFloor, e₁.writer.wal.durableEnd, e₁.liveSegments⟩
    simp only
    rcases hstore : e₁.store ⟨e₁.replayFloor, e₁.writer.wal.durableEnd, e₁.liveSegments⟩ with
      ⟨e₂, err | u⟩ <;> rw [hstore] at hst <;> exact hst.trans ht

theorem tiers_compact (e : Engine) : e.compact.1.tiers = e.tiers := by
  have ht := e.tiers_tick
  rw [compact]
  split_ifs with hfew
  · rfl
  rcases htick : e.tick with ⟨e₁, err | u⟩ <;> rw [htick] at ht
  · exact ht
  simp only
  cases hread : readSegments e₁.segments e₁.liveSegments with
  | none => exact ht
  | some merged =>
    simp only
    generalize e₁.mergedSegment merged = seg
    have hs := e₁.tiers_sealSegment e₁.nextSegmentIndex seg
    rcases hseal : e₁.sealSegment e₁.nextSegmentIndex seg with ⟨e₂, err | u⟩ <;> rw [hseal] at hs
    · exact hs.trans ht
    simp only
    generalize RecoveryPoint.mk _ _ _ = p
    have hst := e₂.tiers_store p
    rcases hstore : e₂.store p with ⟨e₃, err | u⟩ <;> rw [hstore] at hst <;>
      exact hst.trans (hs.trans ht)

/-- A flush that succeeds leaves nothing staged; one that fails changes nothing in the tiers. -/
theorem flush_cases (e : Engine) :
    e.flush.1.tiers = { e.tiers with delta := e.tiers.delta.discardFlushed } ∨
      e.flush.1.tiers = e.tiers ∧ (e.flush.2 = .ok () →
        e.tiers.delta.stagedVersions = [] ∧ e.tiers.delta.stagedRetractions = []) := by
  have ht := e.tiers_tick
  rw [flush]
  rcases htick : e.tick with ⟨e₁, err | u⟩ <;> rw [htick] at ht
  · exact .inr ⟨ht, fun h => nomatch h⟩
  simp only at ht ⊢
  split_ifs with hempty
  · generalize RecoveryPoint.mk _ _ _ = p
    have hst := e₁.tiers_store p
    have hnone : e.tiers.delta.stagedVersions = [] ∧ e.tiers.delta.stagedRetractions = [] := by
      rw [← ht]
      exact ⟨List.isEmpty_iff.1 hempty.1, List.isEmpty_iff.1 hempty.2⟩
    rcases hstore : e₁.store p with ⟨e₂, err | u⟩ <;> rw [hstore] at hst <;>
      exact .inr ⟨hst.trans ht, fun _ => hnone⟩
  · generalize Segment.mk _ _ _ = seg
    have hs := e₁.tiers_sealSegment e₁.nextSegmentIndex seg
    rcases hseal : e₁.sealSegment e₁.nextSegmentIndex seg with ⟨e₂, err | u⟩ <;> rw [hseal] at hs
    · exact .inr ⟨hs.trans ht, fun h => nomatch h⟩
    simp only
    generalize RecoveryPoint.mk _ _ _ = p
    have hst := e₂.tiers_store p
    rcases hstore : e₂.store p with ⟨e₃, err | u⟩ <;> rw [hstore] at hst
    · exact .inr ⟨hst.trans (hs.trans ht), fun h => nomatch h⟩
    · refine .inl ?_
      show { e₃.tiers with delta := e₃.tiers.delta.discardFlushed } = _
      rw [show e₃.tiers = e.tiers from hst.trans (hs.trans ht)]

/-- A write applies the redo set it resolves to, or nothing. -/
theorem tiers_write (e : Engine) (w : DmlWrite) :
    (e.write w).1.tiers = e.tiers ∨
      ∃ b, (e.write w).1.tiers = (applyRedos b e.tiers (e.stagedRedos w)).1 := by
  simp only [write, DmlWriter.write, stagedRedos]
  rcases e.writer.stage e.tiers e.sealedVersions w with ⟨st, err | ⟨commit, redos⟩⟩
  · exact .inl rfl
  simp only [DmlWriter.logAndApply]
  cases hg : e.writer.group with
  | some rs =>
    refine .inr ⟨e.writer.groupBulk, ?_⟩
    cases hb : e.writer.groupBulk with
    | true =>
      simp only [if_true, apply]
      rcases applyRedos true e.tiers redos with ⟨t, err | u⟩ <;> rfl
    | false =>
      simp only [Bool.false_eq_true, if_false, applyResident]
      rcases applyRedos false e.tiers redos with ⟨t, err | u⟩ <;> rfl
  | none =>
    rcases appendGroupRecord e.writer.wal none redos with ⟨wal, err | u⟩
    · exact .inl rfl
    · refine .inr ⟨true, ?_⟩
      simp only [apply]
      rcases applyRedos true e.tiers redos with ⟨t, err | u⟩ <;> rfl

/-- The byte count of a reachable engine never exceeds the rows in memory. -/
theorem InReach.counted {e : Engine} (h : InReach e) : e.tiers.delta.mem.Counted := by
  induction h with
  | opened => exact MemTier.counted_new
  | @recovered disk validTime committed e h faults =>
    rw [recoverWithCommits] at h
    split at h
    · cases h
    · rename_i merged hread
      split at h
      · cases h
      · rename_i ix hrebuild
        have hc := MemTier.Counted.recoverReplay (t := { delta := {}, index := ix })
          MemTier.counted_new committed
          ((disk.manifest.load.map RecoveryPoint.durableFence).getD 0)
          ((disk.manifest.load.map RecoveryPoint.replayFloor).getD 0)
          (disk.log.drop ((disk.manifest.load.map RecoveryPoint.replayFloor).getD 0))
        split at h
        · cases h
        · rename_i t hreplay
          cases h
          rw [hreplay] at hc
          exact hc
  | write h w ih =>
    rcases tiers_write _ w with ht | ⟨b, ht⟩ <;> rw [ht]
    · exact ih
    · exact ih.applyRedos b _
  | beginGroup h ih => exact ih
  | @finishGroup e h txnId ih =>
    simp only [Engine.finishGroup, DmlWriter.finishGroup]
    split_ifs with hnil
    · exact ih
    · rcases appendGroupRecord e.writer.wal txnId (e.writer.group.getD []) with ⟨wal, err | u⟩
      · exact ih.undo _
      · simp only
        rcases wal.tick with ⟨wal', err | u⟩ <;> exact ih
  | @abortGroup e h ih =>
    simp only [Engine.abortGroup, DmlWriter.abortGroup]
    split_ifs with hbulk
    · exact MemTier.counted_new
    · cases e.writer.group with
      | some rs => exact ih.undo _
      | none => exact ih
  | beginBulkGroup h ih => exact ih
  | @commitBulkChunk e h txnId ih =>
    simp only [Engine.commitBulkChunk]
    exact ih
  | endBulkGroup h ih => exact ih
  | flush h ih =>
    rcases flush_cases _ with ht | ⟨ht, -⟩ <;> rw [ht]
    · exact MemTier.counted_new
    · exact ih
  | compact h ih => rw [tiers_compact]; exact ih
  | checkpoint h ih => rw [tiers_checkpoint]; exact ih

/-! ### Bulk loads -/

/-- A step of a bulk load: one row, or the chunk of rows since the last one. -/
inductive LoadStep where
  /-- Insert a row. -/
  | row (w : DmlWrite) (insert : ∃ valid payload seq, w.op = .insert valid payload seq)
  /-- Log the rows buffered. -/
  | chunk (txnId : TxnId)

/-- The steps of a bulk load, whether or not they fail. -/
def load : Engine → List LoadStep → Engine
  | e, [] => e
  | e, .row w _ :: steps => load (e.write w).1 steps
  | e, .chunk txnId :: steps => load (e.commitBulkChunk txnId).1 steps

theorem groupBulk_write (e : Engine) (w : DmlWrite) :
    (e.write w).1.writer.groupBulk = e.writer.groupBulk := by
  simp only [write, DmlWriter.write]
  rcases e.writer.stage e.tiers e.sealedVersions w with ⟨st, err | ⟨commit, redos⟩⟩
  · rfl
  simp only [DmlWriter.logAndApply]
  cases hg : e.writer.group with
  | some rs =>
    simp only
    rcases (if e.writer.groupBulk = true then apply e.tiers redos else applyResident e.tiers redos)
      with ⟨t, err | u⟩ <;> rfl
  | none =>
    simp only
    rcases appendGroupRecord e.writer.wal none redos with ⟨wal, err | u⟩
    · rfl
    · simp only
      rcases apply e.tiers redos with ⟨t, err | u⟩ <;> rfl

/-- An insert ends no version. -/
theorem index_write_insert (e : Engine) {w : DmlWrite}
    (hop : ∃ valid payload seq, w.op = .insert valid payload seq) :
    (e.write w).1.tiers.index = e.tiers.index := by
  have hstaged : e.stagedRedos w = [] ∨ ∃ v, e.stagedRedos w = [.insert v] := by
    rw [stagedRedos]
    rcases hst : e.writer.stage e.tiers e.sealedVersions w with ⟨st, err | ⟨commit, redos⟩⟩
    · exact .inl rfl
    · obtain ⟨valid, payload, seq, hw⟩ := hop
      have hone := DmlWriter.oneWrite_stage hst
      rw [hw] at hone
      cases hone with
      | insert v => exact .inr ⟨v, rfl⟩
  rcases e.tiers_write w with ht | ⟨b, ht⟩
  · rw [ht]
  · rw [ht]
    rcases hstaged with hnil | ⟨v, hv⟩
    · rw [hnil]
      rfl
    · rw [hv, applyRedos_singleton_fst, applyRedo]
      rcases e.tiers.delta.insertInner v b with ⟨d, err | u⟩ <;> rfl

/-- **A bulk load** stages no end, and stays a bulk load. -/
theorem load_keeps (e : Engine) (steps : List LoadStep) :
    (e.load steps).tiers.index = e.tiers.index ∧
      (e.load steps).writer.groupBulk = e.writer.groupBulk := by
  induction steps generalizing e with
  | nil => exact ⟨rfl, rfl⟩
  | cons step steps ih =>
    cases step with
    | row w hop =>
      obtain ⟨hix, hb⟩ := ih (e.write w).1
      exact ⟨hix.trans (e.index_write_insert hop), hb.trans (e.groupBulk_write w)⟩
    | chunk txnId =>
      obtain ⟨hix, hb⟩ := ih (e.commitBulkChunk txnId).1
      refine ⟨hix, hb.trans ?_⟩
      simp only [commitBulkChunk, DmlWriter.commitBulkChunk]
      split_ifs with hnil
      · rfl
      · rcases appendGroupRecord e.writer.wal (some txnId) (e.writer.group.getD []) with
          ⟨wal, err | u⟩
        · rfl
        · rcases hticked : wal.tick with ⟨wal', err | u⟩ <;> simp only [hticked]

/-- A flush that succeeds leaves nothing staged and counts no bytes. -/
theorem InReach.flushed {e : Engine} (h : InReach e) (hok : e.flush.2 = .ok ()) :
    e.flush.1.tiers.delta.stagedVersions = [] ∧ e.flush.1.tiers.delta.stagedRetractions = [] ∧
      e.flush.1.tiers.delta.mem.byteSize = 0 := by
  rcases e.flush_cases with ht | ⟨ht, hnone⟩
  · rw [ht]
    exact ⟨rfl, rfl, rfl⟩
  · obtain ⟨hv, hr⟩ := hnone hok
    rw [ht]
    refine ⟨hv, hr, ?_⟩
    -- no row is in memory, and the count is no more than the rows
    have hspill : e.tiers.delta.spillRows = [] := KeyedMap.eq_nil_of_values_insertAll hv
    have hmem : e.tiers.delta.mem.rows.values = [] := by
      rw [Delta.stagedVersions, Delta.mergeStaged, hspill] at hv
      exact KeyedMap.eq_nil_of_values_insertAll hv
    have hc := h.counted
    rw [MemTier.Counted, MemTier.rowBytes, hmem] at hc
    exact Nat.le_zero.1 hc

/-- **Aborting restores the tiers.**  On every engine in reach, a transaction of undoable writes
that is aborted, or whose record does not reach the log, leaves what was staged, the ends and the
byte count as they were when it began, whichever of its writes were refused or applied in part; so
does an aborted bulk load, which starts on a flushed table. -/
theorem group_abort_restores {e : Engine} (h : InReach e) :
    (∀ ws, e.beginGroup.AllUndoable ws →
      (e.beginGroup.writeEach ws).abortGroup.tiers.Agrees e.tiers ∧
      ∀ txnId err, (appendGroupRecord (e.beginGroup.writeEach ws).writer.wal txnId
          ((e.beginGroup.writeEach ws).writer.group.getD [])).2 = .error err →
        ((e.beginGroup.writeEach ws).finishGroup txnId).1.tiers.Agrees e.tiers) ∧
    (e.flush.2 = .ok () → ∀ steps,
      (e.flush.1.beginBulkGroup.load steps).abortGroup.tiers.Agrees e.flush.1.tiers) := by
  refine ⟨fun ws hu => ?_, fun hok steps => ?_⟩
  · have hback := (TakesBack.beginGroup e).writeEach hu
    exact ⟨hback.abortGroup.agrees, fun txnId err herr => (hback.finishGroup herr).agrees⟩
  · obtain ⟨hversions, hretractions, hbytes⟩ := h.flushed hok
    obtain ⟨hix, hbulk⟩ := e.flush.1.beginBulkGroup.load_keeps steps
    have hbulk' : (e.flush.1.beginBulkGroup.load steps).writer.groupBulk = true := hbulk
    simp only [abortGroup, DmlWriter.abortGroup, hbulk', if_true]
    exact ⟨hversions.symm, hretractions.symm, by rw [hix]; rfl, hbytes.symm⟩

/-- A table with one row, written at 10. -/
def oneRow : Engine := (write {} ⟨10, [1], 1, [], .insert none (some [7]) 0⟩).1

theorem inReach_oneRow : InReach oneRow := (InReach.opened false {} {} {}).write _

/-- An update, a delete, a second delete that is refused, and the key again. -/
def rewriteRow : List DmlWrite :=
  [⟨20, [1], 2, [], .update none (some [8]) 0⟩, ⟨21, [1], 2, [], .delete⟩,
    ⟨21, [1], 2, [], .delete⟩, ⟨22, [1], 2, [], .insert none (some [9]) 0⟩]

theorem rewriteRow_restored :
    oneRow.beginGroup.AllUndoable rewriteRow ∧
      (oneRow.beginGroup.writeEach rewriteRow).abortGroup.tiers.Agrees oneRow.tiers :=
  have hu : oneRow.beginGroup.AllUndoable rewriteRow := by decide
  ⟨hu, ((group_abort_restores inReach_oneRow).1 rewriteRow hu).1⟩

/-- The table after an update at 20, recovered from its disk. -/
def reopened : Engine :=
  ((recover (oneRow.write ⟨20, [1], 2, [], .update none (some [8]) 0⟩).1.disk
    false).toOption.getD {}).withFaults {}

theorem inReach_reopened : InReach reopened := by
  have hok : (recover (oneRow.write ⟨20, [1], 2, [], .update none (some [8]) 0⟩).1.disk
      false).isOk = true := by decide
  cases h : recover (oneRow.write ⟨20, [1], 2, [], .update none (some [8]) 0⟩).1.disk false with
  | error err => rw [h] at hok; cases hok
  | ok e =>
    rw [reopened, h]
    exact .recovered h {}

/-- **A clock behind the last commit.**  After the recovery the clock reads 15.  The update of the
row is refused, since the version it would end ended at 20, and undoing it removes that end. -/
theorem abort_forgets_end :
    InReach reopened ∧
    (∀ v ∈ reopened.tiers.delta.stagedVersions, v.id ≠ toLex ([1], toLex (15, 0))) ∧
    ¬ (reopened.beginGroup.writeEach
        [⟨15, [1], 3, [], .update none (some [9]) 0⟩]).abortGroup.tiers.Agrees reopened.tiers := by
  refine ⟨inReach_reopened, by decide, fun h => ?_⟩
  have hbefore :
      (reopened.tiers.index.materialize[(toLex ([1], toLex (10, 0)) : VersionId)]?).isSome := by
    decide
  rw [← h.closes] at hbefore
  revert hbefore
  decide

end Engine

end SteleDb
