import SteleDb.Lib.Scopes
import SteleDb.Session.Txn

/-!
# Savepoints

The write set of a transaction is two lists kept parallel, the writes and their anchors, and a
savepoint is a number of writes: rolling back to it cuts both lists there.  Names of savepoints may
repeat, and mean the last one.

The same calls open, roll back and release nested scopes, which know of no numbers.

* `WriteSet.run_nests` : the write set holds what the scopes hold, each write with the anchor it was
  staged with;
* `SessionTransaction.run_keeps` : the transactions of the server, whose writes come paired with
  their anchors, hold the same.
-/

namespace SteleDb

/-! ### The write set -/

/-- An open savepoint. -/
structure Savepoint where
  /-- Its name. -/
  name : Name
  /-- How many writes were buffered when it was established. -/
  mark : ℕ
  deriving DecidableEq

/-- What a transaction has staged. -/
structure WriteSet where
  /-- The writes, in the order of their statements. -/
  writes : List BoundDml := []
  /-- The snapshot that each write was staged under. -/
  writeAnchors : List SystemTimeMicros := []
  /-- The open savepoints, innermost last. -/
  savepoints : List Savepoint := []
  deriving DecidableEq

/-- The last position of a list where a property holds. -/
def rposition {α : Type*} (p : α → Bool) (l : List α) : Option (Fin l.length) :=
  (l.reverse.findFinIdx? p).map fun i => (i.cast l.length_reverse).rev

namespace WriteSet

variable (w : WriteSet)

/-- Buffer a write. -/
def stage (dml : BoundDml) (anchor : SystemTimeMicros) : WriteSet :=
  { w with writes := w.writes ++ [dml], writeAnchors := w.writeAnchors ++ [anchor] }

/-- Buffer the writes of a statement. -/
def stageAll (dmls : List BoundDml) (anchor : SystemTimeMicros) : WriteSet :=
  dmls.foldl (fun w dml => w.stage dml anchor) w

/-- The buffered writes with their anchors. -/
def staged : List (BoundDml × SystemTimeMicros) := w.writes.zip w.writeAnchors

/-- `SAVEPOINT`. -/
def savepoint (name : Name) : WriteSet :=
  { w with savepoints := w.savepoints ++ [⟨name, w.writes.length⟩] }

/-- `ROLLBACK TO SAVEPOINT`, and whether there is such a savepoint. -/
def rollbackTo (name : Name) : WriteSet × Bool :=
  match rposition (fun sp => sp.name = name) w.savepoints with
  | none => (w, false)
  | some idx =>
    ({ writes := w.writes.take w.savepoints[idx].mark
       writeAnchors := w.writeAnchors.take w.savepoints[idx].mark
       savepoints := w.savepoints.take (idx + 1) }, true)

/-- `RELEASE SAVEPOINT`, and whether there is such a savepoint. -/
def release (name : Name) : WriteSet × Bool :=
  match rposition (fun sp => sp.name = name) w.savepoints with
  | none => (w, false)
  | some idx => ({ w with savepoints := w.savepoints.take idx }, true)

end WriteSet

/-- A call on the write set. -/
inductive WriteSetCall where
  | stage (dml : BoundDml) (anchor : SystemTimeMicros)
  | stageAll (dmls : List BoundDml) (anchor : SystemTimeMicros)
  | savepoint (name : Name)
  | rollbackTo (name : Name)
  | release (name : Name)

/-- The writes that a call stages. -/
def WriteSetCall.stages : WriteSetCall → List (BoundDml × SystemTimeMicros)
  | .stage dml anchor => [(dml, anchor)]
  | .stageAll dmls anchor => dmls.map fun dml => (dml, anchor)
  | _ => []

/-- The write set after a call. -/
def WriteSet.call (w : WriteSet) : WriteSetCall → WriteSet
  | .stage dml anchor => w.stage dml anchor
  | .stageAll dmls anchor => w.stageAll dmls anchor
  | .savepoint name => w.savepoint name
  | .rollbackTo name => (w.rollbackTo name).1
  | .release name => (w.release name).1

/-- The write set after some calls. -/
def WriteSet.run (calls : List WriteSetCall) : WriteSet := calls.foldl WriteSet.call {}

/-! ### Nested transactions -/

/-- The scopes after a call. -/
def Scopes.call (s : Scopes Name (BoundDml × SystemTimeMicros)) :
    WriteSetCall → Scopes Name (BoundDml × SystemTimeMicros)
  | .stage dml anchor => s.write [(dml, anchor)]
  | .stageAll dmls anchor => s.write (dmls.map fun dml => (dml, anchor))
  | .savepoint name => s.enter name
  | .rollbackTo name => s.rollbackTo name
  | .release name => s.release name

/-- The scopes after some calls. -/
def nestedRun (calls : List WriteSetCall) : Scopes Name (BoundDml × SystemTimeMicros) :=
  calls.foldl Scopes.call {}

/-- The scopes as savepoints, innermost first. -/
def marks (base : List (BoundDml × SystemTimeMicros)) :
    List (Name × List (BoundDml × SystemTimeMicros)) → List Savepoint
  | [] => []
  | scope :: outer => ⟨scope.1, (Scopes.writtenIn base outer).length⟩ :: marks base outer

section marks

variable {base : List (BoundDml × SystemTimeMicros)}

theorem marks_dropWhile (name : Name) (opened : List (Name × List (BoundDml × SystemTimeMicros))) :
    (marks base opened).dropWhile (fun sp => !decide (sp.name = name)) =
      marks base (opened.dropWhile fun scope => scope.1 ≠ name) := by
  induction opened with
  | nil => rfl
  | cons scope outer ih =>
    by_cases h : scope.1 = name
    · simp [marks, h]
    · simpa [marks, h] using ih

theorem marks_write (s : Scopes Name (BoundDml × SystemTimeMicros))
    (ws : List (BoundDml × SystemTimeMicros)) :
    marks (s.write ws).base (s.write ws).opened = marks s.base s.opened := by
  obtain ⟨base, opened⟩ := s
  cases opened <;> rfl

theorem mark_le {opened : List (Name × List (BoundDml × SystemTimeMicros))} {sp : Savepoint}
    (h : sp ∈ marks base opened) : sp.mark ≤ (Scopes.writtenIn base opened).length := by
  induction opened with
  | nil => exact absurd h List.not_mem_nil
  | cons scope outer ih =>
    rw [Scopes.writtenIn, List.length_append]
    rcases List.mem_cons.1 h with rfl | h
    · exact Nat.le_add_right _ _
    · exact (ih h).trans (Nat.le_add_right _ _)

theorem marks_sorted (base : List (BoundDml × SystemTimeMicros))
    (opened : List (Name × List (BoundDml × SystemTimeMicros))) :
    ((marks base opened).map Savepoint.mark).Pairwise (· ≥ ·) := by
  induction opened with
  | nil => exact .nil
  | cons scope outer ih =>
    refine List.pairwise_cons.2 ⟨fun m hm => ?_, ih⟩
    obtain ⟨sp, hsp, rfl⟩ := List.mem_map.1 hm
    exact mark_le hsp

end marks

/-! ### Positions from the end -/

section rposition

variable {α : Type*} {p : α → Bool} {l : List α}

theorem rposition_eq_none : rposition p l = none ↔ l.reverse.dropWhile (fun a => !p a) = [] := by
  rw [rposition, Option.map_eq_none_iff, List.findFinIdx?_eq_none_iff, List.dropWhile_eq_nil_iff]
  simp

theorem dropWhile_of_rposition {i : Fin l.length} (h : rposition p l = some i) :
    l.reverse.dropWhile (fun a => !p a) = l[i] :: (l.take i).reverse := by
  obtain ⟨j, hj, rfl⟩ := Option.map_eq_some_iff.1 h
  have hidx : l.reverse.findIdx p = j := by
    have hval : l.reverse.findIdx? p = (l.reverse.findFinIdx? p).map (·.val) :=
      List.findIdx?_eq_map_findFinIdx?_val
    rw [hj] at hval
    exact (List.findIdx?_eq_some_iff_findIdx_eq.1 hval).2
  have hlt : (j : ℕ) < l.length := l.length_reverse ▸ j.isLt
  rw [List.dropWhile_eq_drop_findIdx_not]
  simp only [Bool.not_not, hidx, List.drop_reverse]
  have hcut : l.length - j = (l.length - (j + 1)) + 1 := by omega
  have hget : l.length - (j + 1) < l.length := by omega
  rw [hcut, List.take_add_one, List.reverse_append, List.getElem?_eq_getElem hget]
  simp [Fin.val_rev]

end rposition

namespace WriteSet

variable {w : WriteSet} {name : Name}

theorem rollbackTo_of_none (h : rposition (fun sp => sp.name = name) w.savepoints = none) :
    w.rollbackTo name = (w, false) := by
  rw [rollbackTo, h]

theorem release_of_none (h : rposition (fun sp => sp.name = name) w.savepoints = none) :
    w.release name = (w, false) := by
  rw [release, h]

theorem rollbackTo_of_some {idx : Fin w.savepoints.length}
    (h : rposition (fun sp => sp.name = name) w.savepoints = some idx) :
    w.rollbackTo name =
      ({ writes := w.writes.take w.savepoints[idx].mark
         writeAnchors := w.writeAnchors.take w.savepoints[idx].mark
         savepoints := w.savepoints.take (idx + 1) }, true) := by
  rw [rollbackTo, h]

theorem release_of_some {idx : Fin w.savepoints.length}
    (h : rposition (fun sp => sp.name = name) w.savepoints = some idx) :
    w.release name = ({ w with savepoints := w.savepoints.take idx }, true) := by
  rw [release, h]

/-! ### The write set holds what the scopes hold -/

/-- The write set holds the writes of the scopes, and their sizes. -/
structure Holds (w : WriteSet) (s : Scopes Name (BoundDml × SystemTimeMicros)) : Prop where
  /-- The same writes. -/
  writes : w.writes = s.written.map Prod.fst
  /-- The same anchors. -/
  anchors : w.writeAnchors = s.written.map Prod.snd
  /-- A savepoint for each open scope. -/
  savepoints : w.savepoints.reverse = marks s.base s.opened

variable {s : Scopes Name (BoundDml × SystemTimeMicros)}

theorem Holds.staged (h : w.Holds s) : w.staged = s.written := by
  rw [WriteSet.staged]
  exact (List.zip_of_prod h.writes.symm h.anchors.symm).symm

theorem stageAll_eq (w : WriteSet) (dmls : List BoundDml) (anchor : SystemTimeMicros) :
    w.stageAll dmls anchor =
      { w with
        writes := w.writes ++ dmls
        writeAnchors := w.writeAnchors ++ dmls.map fun _ => anchor } := by
  induction dmls generalizing w with
  | nil => simp [stageAll]
  | cons dml dmls ih =>
    rw [stageAll, List.foldl_cons, ← stageAll, ih]
    simp [stage]

theorem Holds.write (h : w.Holds s) (dmls : List BoundDml) (anchor : SystemTimeMicros) :
    (w.stageAll dmls anchor).Holds (s.write (dmls.map fun dml => (dml, anchor))) := by
  rw [stageAll_eq]
  refine ⟨?_, ?_, ?_⟩
  · simp [h.writes, Function.comp_def]
  · simp [h.anchors, Function.comp_def]
  · rw [marks_write]
    exact h.savepoints

theorem Holds.savepoint (h : w.Holds s) (name : Name) :
    (w.savepoint name).Holds (s.enter name) := by
  refine ⟨?_, ?_, ?_⟩
  · rw [Scopes.written_enter]
    exact h.writes
  · rw [Scopes.written_enter]
    exact h.anchors
  · have hlen : w.writes.length = s.written.length := by rw [h.writes, List.length_map]
    rw [WriteSet.savepoint, List.reverse_append, h.savepoints, hlen]
    rfl

/-- No savepoint has the name, and no scope. -/
theorem Holds.position_none (h : w.Holds s)
    (hpos : rposition (fun sp => sp.name = name) w.savepoints = none) :
    s.opened.dropWhile (fun scope => scope.1 ≠ name) = [] := by
  have hdrop := rposition_eq_none.1 hpos
  rw [h.savepoints, marks_dropWhile] at hdrop
  cases hscopes : s.opened.dropWhile fun scope => scope.1 ≠ name with
  | nil => rfl
  | cons scope outer =>
    rw [hscopes] at hdrop
    exact absurd hdrop (List.cons_ne_nil _ _)

/-- The last savepoint of the name stands for the innermost scope. -/
theorem Holds.position_some (h : w.Holds s) {idx : Fin w.savepoints.length}
    (hpos : rposition (fun sp => sp.name = name) w.savepoints = some idx) :
    ∃ scope outer, s.opened.dropWhile (fun scope => scope.1 ≠ name) = scope :: outer ∧
      w.savepoints[idx] = ⟨scope.1, (Scopes.writtenIn s.base outer).length⟩ ∧
      (w.savepoints.take idx).reverse = marks s.base outer := by
  have hdrop := dropWhile_of_rposition hpos
  rw [h.savepoints, marks_dropWhile] at hdrop
  cases hscopes : s.opened.dropWhile fun scope => scope.1 ≠ name with
  | nil =>
    rw [hscopes] at hdrop
    exact absurd hdrop.symm (List.cons_ne_nil _ _)
  | cons scope outer =>
    rw [hscopes, marks] at hdrop
    obtain ⟨hhead, htail⟩ := List.cons_eq_cons.1 hdrop
    exact ⟨scope, outer, rfl, hhead.symm, htail.symm⟩

theorem Holds.rollbackTo (h : w.Holds s) (name : Name) :
    (w.rollbackTo name).1.Holds (s.rollbackTo name) := by
  cases hpos : rposition (fun sp => sp.name = name) w.savepoints with
  | none =>
    rw [rollbackTo_of_none hpos, Scopes.rollbackTo_of_none (h.position_none hpos)]
    exact h
  | some idx =>
    obtain ⟨scope, outer, hscope, hmark, houter⟩ := h.position_some hpos
    have hcut : s.written.take (Scopes.writtenIn s.base outer).length =
        (s.rollbackTo name).written := by
      rw [Scopes.written_rollbackTo hscope, Scopes.written_of_scope hscope, List.take_left]
    rw [rollbackTo_of_some hpos, hmark]
    refine ⟨?_, ?_, ?_⟩
    · rw [← hcut, List.map_take, ← h.writes]
    · rw [← hcut, List.map_take, ← h.anchors]
    · have hkept : w.savepoints.take (idx + 1) = w.savepoints.take idx ++ [w.savepoints[idx]] := by
        rw [List.take_add_one, List.getElem?_eq_getElem idx.isLt]
        rfl
      dsimp only
      rw [Scopes.rollbackTo_of_scope hscope, marks, hkept, List.reverse_append, houter, hmark]
      rfl

theorem Holds.release (h : w.Holds s) (name : Name) :
    (w.release name).1.Holds (s.release name) := by
  cases hpos : rposition (fun sp => sp.name = name) w.savepoints with
  | none =>
    rw [release_of_none hpos, Scopes.release_of_none (h.position_none hpos)]
    exact h
  | some idx =>
    obtain ⟨scope, outer, hscope, -, houter⟩ := h.position_some hpos
    rw [release_of_some hpos]
    refine ⟨?_, ?_, ?_⟩
    · rw [Scopes.written_release]
      exact h.writes
    · rw [Scopes.written_release]
      exact h.anchors
    · rw [Scopes.release_of_scope hscope, marks_write]
      exact houter

theorem Holds.call (h : w.Holds s) (c : WriteSetCall) : (w.call c).Holds (s.call c) := by
  cases c with
  | stage dml anchor => exact h.write [dml] anchor
  | stageAll dmls anchor => exact h.write dmls anchor
  | savepoint name => exact h.savepoint name
  | rollbackTo name => exact h.rollbackTo name
  | release name => exact h.release name

theorem run_holds (calls : List WriteSetCall) : (run calls).Holds (nestedRun calls) := by
  induction calls using List.reverseRecOn with
  | nil => exact ⟨rfl, rfl, rfl⟩
  | append_singleton calls c ih =>
    rw [run, nestedRun, List.foldl_append, List.foldl_append]
    exact ih.call c

/-- A write set is that of nested transactions. -/
structure Nests (w : WriteSet) (s : Scopes Name (BoundDml × SystemTimeMicros)) : Prop where
  /-- It holds their writes, each with its anchor. -/
  staged : w.staged = s.written
  /-- There is one anchor for each write. -/
  parallel : w.writeAnchors.length = w.writes.length
  /-- No mark is beyond the writes. -/
  mark_le : ∀ sp ∈ w.savepoints, sp.mark ≤ w.writes.length
  /-- The marks do not decrease up the stack. -/
  mark_sorted : (w.savepoints.map Savepoint.mark).Pairwise (· ≤ ·)
  /-- A name that is not open is refused, and nothing changes. -/
  unknown : ∀ name, (∀ scope ∈ s.opened, scope.1 ≠ name) →
    w.rollbackTo name = (w, false) ∧ w.release name = (w, false)
  /-- A name that is open is found. -/
  known : ∀ name, (∃ scope ∈ s.opened, scope.1 = name) →
    (w.rollbackTo name).2 = true ∧ (w.release name).2 = true

theorem Holds.nests (h : w.Holds s) : w.Nests s := by
  refine ⟨h.staged, ?_, fun sp hsp => ?_, ?_, fun name hname => ?_, fun name hname => ?_⟩
  · rw [h.writes, h.anchors, List.length_map, List.length_map]
  · rw [h.writes, List.length_map]
    refine SteleDb.mark_le ?_
    rw [← h.savepoints]
    exact List.mem_reverse.2 hsp
  · have hsorted := marks_sorted s.base s.opened
    rw [← h.savepoints, List.map_reverse, List.pairwise_reverse] at hsorted
    exact hsorted
  · cases hpos : rposition (fun sp => sp.name = name) w.savepoints with
    | none => exact ⟨rollbackTo_of_none hpos, release_of_none hpos⟩
    | some idx =>
      obtain ⟨scope, outer, hscope, -⟩ := h.position_some hpos
      have hnone : s.opened.dropWhile (fun scope => scope.1 ≠ name) = [] :=
        List.dropWhile_eq_nil_iff.2 fun scope hscope => decide_eq_true (hname scope hscope)
      rw [hnone] at hscope
      exact absurd hscope.symm (List.cons_ne_nil _ _)
  · cases hpos : rposition (fun sp => sp.name = name) w.savepoints with
    | none =>
      obtain ⟨scope, hscope, hnamed⟩ := hname
      have hall := List.dropWhile_eq_nil_iff.1 (h.position_none hpos) scope hscope
      exact absurd hnamed (of_decide_eq_true hall)
    | some idx =>
      rw [rollbackTo_of_some hpos, release_of_some hpos]
      exact ⟨rfl, rfl⟩

end WriteSet

theorem Scopes.written_call_sublist (s : Scopes Name (BoundDml × SystemTimeMicros))
    (c : WriteSetCall) : (s.call c).written.Sublist (s.written ++ c.stages) := by
  cases c with
  | stage dml anchor => exact (Scopes.written_write s _).symm ▸ List.Sublist.refl _
  | stageAll dmls anchor => exact (Scopes.written_write s _).symm ▸ List.Sublist.refl _
  | savepoint name => exact (Scopes.written_enter s name).symm ▸ List.sublist_append_left _ _
  | rollbackTo name => exact (s.rollbackTo_sublist name).trans (List.sublist_append_left _ _)
  | release name => exact (Scopes.written_release s name).symm ▸ List.sublist_append_left _ _

theorem nestedRun_sublist (calls : List WriteSetCall) :
    (nestedRun calls).written.Sublist (calls.flatMap WriteSetCall.stages) := by
  induction calls using List.reverseRecOn with
  | nil => exact List.Sublist.refl _
  | append_singleton calls c ih =>
    rw [nestedRun, List.foldl_append, List.flatMap_append, ← nestedRun, List.flatMap_singleton]
    exact ((nestedRun calls).written_call_sublist c).trans (ih.append (List.Sublist.refl _))

/-- **Savepoints nest.**  After any calls the write set is that of the nested scopes of the same
calls, a part in order of what was staged. -/
theorem WriteSet.run_nests (calls : List WriteSetCall) :
    (WriteSet.run calls).Nests (nestedRun calls) ∧
      (WriteSet.run calls).staged.Sublist (calls.flatMap WriteSetCall.stages) := by
  have hholds := WriteSet.run_holds calls
  refine ⟨hholds.nests, ?_⟩
  rw [hholds.staged]
  exact nestedRun_sublist calls

/-! ### The transactions of the server -/

/-- The transaction after a call on its write set; what is staged is read at the anchor. -/
def SessionTransaction.call (txn : SessionTransaction) : WriteSetCall → SessionTransaction
  | .stage dml anchor => { txn with snapshot := anchor }.stageAll [dml]
  | .stageAll dmls anchor => { txn with snapshot := anchor }.stageAll dmls
  | .savepoint name => txn.savepoint name
  | .rollbackTo name => txn.rollbackTo name
  | .release name => txn.release name

namespace SessionTransaction

/-- A transaction holds the writes of the scopes, and their sizes. -/
structure Holds (txn : SessionTransaction)
    (s : Scopes Name (BoundDml × SystemTimeMicros)) : Prop where
  /-- The same writes. -/
  staged : txn.staged = s.written
  /-- A savepoint for each open scope. -/
  savepoints : txn.savepoints.reverse = (marks s.base s.opened).map fun sp => (sp.name, sp.mark)

variable {txn : SessionTransaction} {s : Scopes Name (BoundDml × SystemTimeMicros)}

theorem Holds.stageAll (h : txn.Holds s) (dmls : List BoundDml) (anchor : SystemTimeMicros) :
    ({ txn with snapshot := anchor }.stageAll dmls).Holds
      (s.write (dmls.map fun dml => (dml, anchor))) := by
  refine ⟨?_, ?_⟩
  · rw [Scopes.written_write, ← h.staged]
    rfl
  · rw [marks_write]
    exact h.savepoints

theorem Holds.dropWhile (h : txn.Holds s) (name : Name) :
    (txn.savepoints.reverse.dropWhile fun sp => sp.1 ≠ name) =
      (marks s.base (s.opened.dropWhile fun scope => scope.1 ≠ name)).map
        fun sp => (sp.name, sp.mark) := by
  rw [h.savepoints, List.dropWhile_map, ← marks_dropWhile]
  congr 2
  funext sp
  simp

theorem Holds.savepointsUpTo (h : txn.Holds s) (name : Name) :
    txn.savepointsUpTo name =
      match s.opened.dropWhile fun scope => scope.1 ≠ name with
      | [] => none
      | scope :: outer =>
        some ((marks s.base (scope :: outer)).map fun sp => (sp.name, sp.mark)).reverse := by
  rw [SessionTransaction.savepointsUpTo, h.dropWhile]
  cases s.opened.dropWhile fun scope => scope.1 ≠ name <;> rfl

theorem Holds.rollbackTo (h : txn.Holds s) (name : Name) :
    (txn.rollbackTo name).Holds (s.rollbackTo name) := by
  have hupTo := h.savepointsUpTo name
  cases hscope : s.opened.dropWhile fun scope => scope.1 ≠ name with
  | nil =>
    rw [hscope] at hupTo
    rw [SessionTransaction.rollbackTo, hupTo, Scopes.rollbackTo_of_none hscope]
    exact h
  | cons scope outer =>
    rw [hscope] at hupTo
    rw [SessionTransaction.rollbackTo, hupTo]
    refine ⟨?_, ?_⟩
    · rw [Scopes.written_rollbackTo hscope, h.staged, Scopes.written_of_scope hscope]
      simp [marks]
    · rw [Scopes.rollbackTo_of_scope hscope, List.reverse_reverse]
      rfl

theorem Holds.release (h : txn.Holds s) (name : Name) :
    (txn.release name).Holds (s.release name) := by
  have hupTo := h.savepointsUpTo name
  cases hscope : s.opened.dropWhile fun scope => scope.1 ≠ name with
  | nil =>
    rw [hscope] at hupTo
    rw [SessionTransaction.release, hupTo, Scopes.release_of_none hscope]
    exact h
  | cons scope outer =>
    rw [hscope] at hupTo
    rw [SessionTransaction.release, hupTo]
    refine ⟨?_, ?_⟩
    · rw [Scopes.written_release]
      exact h.staged
    · rw [Scopes.release_of_scope hscope, marks_write]
      simp [marks]

theorem Holds.call (h : txn.Holds s) (c : WriteSetCall) : (txn.call c).Holds (s.call c) := by
  cases c with
  | stage dml anchor => exact h.stageAll [dml] anchor
  | stageAll dmls anchor => exact h.stageAll dmls anchor
  | savepoint name =>
    refine ⟨?_, ?_⟩
    · rw [SessionTransaction.call, Scopes.call, Scopes.written_enter]
      exact h.staged
    · rw [SessionTransaction.call, SessionTransaction.savepoint, List.reverse_append, h.savepoints,
        h.staged]
      rfl
  | rollbackTo name => exact h.rollbackTo name
  | release name => exact h.release name

/-- From a transaction that has staged nothing, the server's transactions stage what the write set
does. -/
theorem run_keeps (txn : SessionTransaction) (hstaged : txn.staged = [])
    (hsavepoints : txn.savepoints = []) (calls : List WriteSetCall) :
    (calls.foldl SessionTransaction.call txn).staged = (WriteSet.run calls).staged := by
  have hholds : (calls.foldl SessionTransaction.call txn).Holds (nestedRun calls) := by
    induction calls using List.reverseRecOn with
    | nil =>
      refine ⟨hstaged, ?_⟩
      rw [List.foldl_nil, hsavepoints]
      rfl
    | append_singleton calls c ih =>
      rw [nestedRun, List.foldl_append, List.foldl_append]
      exact ih.call c
  rw [hholds.staged, (WriteSet.run_holds calls).staged]

end SessionTransaction

end SteleDb
