import SteleDb.Storage.Contents
import SteleDb.Storage.EngineRun

/-!
# Transactions of one table as steps of a versioned map

What a table is for: a map from keys to payloads that transactions replace, each of them as a whole
at one instant, and that can be read as of any instant.  `Published` is the list of the maps with
the instants they hold from; a transaction publishes what its writes, accepted one after another,
make of the newest map (`TableTxn.Step`).

The engine does this with records that are never rewritten, tiers that a transaction writes to
before its commit, a log that may refuse the commit, and the undo of what was written.

* `DmlOp.Leaves` : when a write is accepted, and what its key carries then;
* `Engine.InGroup.writeAll_ok`, `Engine.InGroup.writeAll_error` : the writes of a transaction;
* `Engine.groupCommit_step` : a transaction is a step of the map, or nothing;
* `Engine.runTxns_refines` : a run of transactions, read as of any instant;
* `Engine.runCalls_refines` : a run with the upkeep of the storage between its transactions.
-/

namespace SteleDb

open Timeline

/-! ### What a key carries -/

namespace History

variable {H : History} {k k' : BusinessKey}

/-- The payload that the live version of a key was stored with, if it has one. -/
def current (H : History) (k : BusinessKey) : Option (Option Bytes) :=
  (H k).head?.bind fun e => e.value.map Prod.snd

@[simp] theorem current_empty (k : BusinessKey) : empty.current k = none := rfl

@[simp] theorem current_write (H : History) (k : BusinessKey) (e : KeyEvent) :
    (H.write k e).current k = e.value.map Prod.snd := by
  rw [current, write_self]
  rfl

theorem current_write_of_ne (h : k' ≠ k) (H : History) (e : KeyEvent) :
    (H.write k e).current k' = H.current k' := by
  rw [current, write_of_ne h, current]

theorem update_current (H : History) (k : BusinessKey) (e : KeyEvent) :
    Function.update H.current k (e.value.map Prod.snd) = (H.write k e).current := by
  funext k'
  by_cases hk : k' = k
  · subst hk
    rw [Function.update_self, current_write]
  · rw [Function.update_of_ne hk, current_write_of_ne hk]

theorem live_iff : H.Live k ↔ (H.current k).isSome := by
  rw [Live, periodsOf, exists_open_iff, current]
  cases (H k).head? with
  | none => simp
  | some e => simp

theorem not_live_iff_current : ¬ H.Live k ↔ H.current k = none := by
  rw [live_iff, Option.not_isSome_iff_eq_none]

end History

/-- From the last event on a subject carries what that event says. -/
theorem stateAt_of_le {h : List KeyEvent} {now : SystemTimeMicros}
    (hle : ∀ e ∈ h, e.instant ≤ now) : stateAt h now = h.head?.bind Event.value := by
  cases h with
  | nil => rfl
  | cons e h => exact stateAt_cons_of_le (hle e List.mem_cons_self) h

/-- A read finds what the history of the key carries at its instant. -/
theorem Engine.asOf_stateAt {e : Engine} {H : History}
    (hs : Stores e.tiers e.sealedVersions H) (k : BusinessKey) {s : SystemTimeMicros}
    (hnow : s < systemTimeOpen) :
    (e.asOf k s).map Version.payload = (stateAt (H k) s).map Prod.snd := by
  ext stored
  rw [← hs.represents.resolves_payload hs.wellFormed hnow, Option.map_eq_some_iff, Engine.asOf_eq]
  simp only [hs.resolveLive_eq_some]

/-- A read from the last event on finds what the key carries. -/
theorem Engine.asOf_current {e : Engine} {H : History}
    (hs : Stores e.tiers e.sealedVersions H) {k : BusinessKey} {s : SystemTimeMicros}
    (hnow : s < systemTimeOpen) (hle : ∀ ev ∈ H k, ev.instant ≤ s) :
    (e.asOf k s).map Version.payload = H.current k := by
  rw [asOf_stateAt hs k hnow, stateAt_of_le hle, History.current, Option.map_bind]
  rfl

/-! ### One write -/

/-- When a write of a key that carries `before` is accepted, and what the key carries then. -/
def DmlOp.Leaves (validTime : Bool) (before after : Option (Option Bytes)) : DmlOp → Prop
  | .insert valid payload _ => before = none ∧
      ∃ stored, framePayload validTime valid payload = .ok stored ∧ after = some stored
  | .update valid payload _ => before.isSome ∧
      ∃ stored, framePayload validTime valid payload = .ok stored ∧ after = some stored
  | .delete => before.isSome ∧ after = none

theorem StagedAs.mem_insert {H : History} {k : BusinessKey} {e : KeyEvent} {rs : List Redo}
    (h : StagedAs H k e rs) {a : Seq × Option Bytes} (ha : e.value = some a) :
    Redo.insert (Version.mkOpen k e.instant a.1 e.author a.2) ∈ rs := by
  cases h with
  | insert _ ha' =>
    rw [ha'] at ha
    cases ha
    exact List.mem_cons_self
  | update _ _ ha' =>
    rw [ha'] at ha
    cases ha
    exact List.mem_cons_of_mem _ List.mem_cons_self
  | delete _ _ hnone =>
    rw [hnone] at ha
    cases ha

/-- A write that resolves is one event of its key. -/
theorem Stores.stage_ok {t : Tiers} {sv : List Version} {H : History} (h : Stores t sv H)
    {dw : DmlWriter} {w : DmlWrite}
    (hle : (∀ prev ∈ dw.writer.lastCommit, prev ≤ w.now) → ∀ ev ∈ H w.key, ev.instant ≤ w.now)
    {writer : SysTimeWriter} {commit : SystemTimeMicros} {rs : List Redo}
    (hst : dw.stage t sv w = (writer, .ok (commit, rs))) :
    writer = ⟨some w.now⟩ ∧ commit = w.now ∧ (∀ prev ∈ dw.writer.lastCommit, prev ≤ w.now) ∧
      w.now < systemTimeOpen ∧ ∃ a, StagedAs H w.key (keyEvent w.now w.txnId w.principal a) rs ∧
        a.map Prod.fst = w.seq ∧
        w.op.Leaves dw.validTime (H.current w.key) (a.map Prod.snd) := by
  rcases h.stage_cases dw hle with ⟨_, _, herr, -⟩ | ⟨a, rs', hok, hprev, hnow, hstaged, ha⟩
  · rw [hst] at herr
    cases herr
  rw [hst] at hok
  cases hok
  have hle' := hle hprev
  refine ⟨rfl, rfl, hprev, hnow, a, hstaged, ha, ?_⟩
  -- what the event asserts was framed
  have hstored : ∀ x, a = some x → w.op.Stores dw.validTime x.2 := fun x hx =>
    (Engine.writes_of_stage hst (hstaged.mem_insert (a := x) hx)).2.2
  obtain ⟨now, key, txnId, principal, op⟩ := w
  cases op with
  | insert valid payload seq =>
    obtain ⟨x, rfl, -⟩ := Option.map_eq_some_iff.1 ha
    refine ⟨History.not_live_iff_current.1 fun hl => ?_, x.2, hstored x rfl, rfl⟩
    rcases hframe : framePayload dw.validTime valid payload with err | framed
    all_goals
      simp only [DmlWriter.stage, hframe, (h.stageInsert hprev hnow hle').1 hl] at hst
      cases (Prod.mk.inj hst).2
  | update valid payload seq =>
    obtain ⟨x, rfl, -⟩ := Option.map_eq_some_iff.1 ha
    refine ⟨History.live_iff.1 (not_not.1 fun hl => ?_), x.2, hstored x rfl, rfl⟩
    rcases hframe : framePayload dw.validTime valid payload with err | framed
    all_goals
      simp only [DmlWriter.stage, hframe, (h.stageUpdate hprev hnow hle').1 hl] at hst
      cases (Prod.mk.inj hst).2
  | delete =>
    have hnone : a = none := Option.map_eq_none_iff.1 ha
    refine ⟨History.live_iff.1 (not_not.1 fun hl => ?_), by rw [hnone]; rfl⟩
    simp only [DmlWriter.stage, (h.stageDelete hprev hnow hle').1 hl] at hst
    cases hst

/-- The rows refused the write, not the clock, a tier or the log. -/
def DmlError.OfRow : DmlError → Prop
  | .resolve (.sysTime .clockRegressed) => False
  | .resolve (.sysTime .timeExhausted) => False
  | .resolve _ => True
  | _ => False

theorem DmlOp.Leaves.unique {validTime : Bool} {before after after' : Option (Option Bytes)}
    {op : DmlOp} (h : op.Leaves validTime before after) (h' : op.Leaves validTime before after') :
    after = after' := by
  cases op with
  | insert valid payload seq | update valid payload seq =>
    obtain ⟨-, stored, hstored, rfl⟩ := h
    obtain ⟨-, stored', hstored', rfl⟩ := h'
    rw [hstored] at hstored'
    rw [Except.ok.inj hstored']
  | delete => rw [h.2, h'.2]

/-- A write is refused for its row only if its key does not take it. -/
theorem Stores.stage_error {t : Tiers} {sv : List Version} {H : History} (h : Stores t sv H)
    {dw : DmlWriter} {w : DmlWrite}
    (hle : (∀ prev ∈ dw.writer.lastCommit, prev ≤ w.now) → ∀ ev ∈ H w.key, ev.instant ≤ w.now)
    {writer : SysTimeWriter} {err : ValidTimeError}
    (hst : dw.stage t sv w = (writer, .error err)) (hrow : (DmlError.resolve err).OfRow)
    (after : Option (Option Bytes)) : ¬ w.op.Leaves dw.validTime (H.current w.key) after := by
  intro hleaves
  obtain ⟨now, key, txnId, principal, op⟩ := w
  by_cases hclock : (∀ prev ∈ dw.writer.lastCommit, prev ≤ now) ∧ now < systemTimeOpen
  · -- the clock admits the write, and its key takes it
    obtain ⟨hprev, hnow⟩ := hclock
    have hle' := hle hprev
    cases op with
    | insert valid payload seq =>
      obtain ⟨hnone, stored, hframe, -⟩ := hleaves
      simp only [DmlWriter.stage, hframe, (h.stageInsert hprev hnow hle').2
        (History.not_live_iff_current.2 hnone)] at hst
      cases hst
    | update valid payload seq =>
      obtain ⟨hsome, stored, hframe, -⟩ := hleaves
      obtain ⟨p, hp, hstop⟩ := History.live_iff.2 hsome
      simp only [DmlWriter.stage, hframe, (h.stageUpdate hprev hnow hle').2 p hp hstop] at hst
      cases hst
    | delete =>
      obtain ⟨p, hp, hstop⟩ := History.live_iff.2 hleaves.1
      simp only [DmlWriter.stage, (h.stageDelete hprev hnow hle').2 p hp hstop] at hst
      cases hst
  · obtain ⟨cerr, hts, hfalse⟩ : ∃ cerr, dw.writer.nextCommitTs now = (dw.writer, .error cerr) ∧
        ¬ (DmlError.resolve (.sysTime cerr)).OfRow := by
      rw [SysTimeWriter.nextCommitTs]
      by_cases hany : (dw.writer.lastCommit.any fun prev => now < prev) = true
      · exact ⟨.clockRegressed, if_pos hany, id⟩
      · refine ⟨.timeExhausted, ?_, id⟩
        rw [if_neg hany, if_pos]
        refine not_lt.1 fun hnow => hclock ⟨fun prev hprev => ?_, hnow⟩
        rw [Option.mem_def.1 hprev] at hany
        simpa using hany
    cases op with
    | insert valid payload seq =>
      obtain ⟨-, stored, hframe, -⟩ := hleaves
      simp only [DmlWriter.stage, hframe, SysTimeWriter.stageInsert, hts] at hst
      cases hst
      exact hfalse hrow
    | update valid payload seq =>
      obtain ⟨-, stored, hframe, -⟩ := hleaves
      simp only [DmlWriter.stage, hframe, SysTimeWriter.stageUpdate, hts] at hst
      cases hst
      exact hfalse hrow
    | delete =>
      simp only [DmlWriter.stage, SysTimeWriter.stageDelete, hts] at hst
      cases hst
      exact hfalse hrow

theorem not_ofRow_encodedLen {r : Redo} {err : DmlError} (h : r.encodedLen = .error err) :
    ¬ err.OfRow := by
  cases r with
  | insert v =>
    rcases hv : v.checkEncodable with e | u
    all_goals
      simp only [Redo.encodedLen, hv] at h
      cases h
    exact id
  | close c | retract c =>
    rcases hc : c.checkEncodable with e | u
    all_goals
      simp only [Redo.encodedLen, hc] at h
      cases h
    exact id

theorem not_ofRow_encodeRedo {rs : List Redo} {err : DmlError} (h : encodeRedo rs = .error err) :
    ¬ err.OfRow := by
  induction rs with
  | nil => cases h
  | cons r rs ih =>
    rw [encodeRedo] at h
    rcases hr : r.encodedLen with err' | n
    · simp only [hr] at h
      cases h
      exact not_ofRow_encodedLen hr
    · simp only [hr] at h
      rcases hrs : encodeRedo rs with err' | m
      · simp only [hrs] at h
        cases h
        exact ih hrs
      · simp only [hrs] at h
        cases h

/-- The log does not look at the rows. -/
theorem not_ofRow_appendGroupRecord {w w' : Wal} {txnId : Option TxnId} {rs : List Redo}
    {err : DmlError} (h : appendGroupRecord w txnId rs = (w', .error err)) : ¬ err.OfRow := by
  rw [appendGroupRecord] at h
  rcases he : encodeRedo rs with err' | len
  · simp only [he] at h
    cases h
    exact not_ofRow_encodeRedo he
  · simp only [he] at h
    rcases happ : w.append (.whole txnId rs)
      (if txnId.isSome then twoPhaseHeaderLen + len else len) with ⟨w₁, werr | _⟩
    · simp only [happ] at h
      cases h
      exact id
    · simp only [happ] at h
      cases h

/-! ### The versioned map -/

/-- What every key carries: nothing, or a payload. -/
abbrev TableView := BusinessKey → Option (Option Bytes)

/-- Writes that are accepted one after another, each against what those before it left. -/
inductive Accepts (validTime : Bool) : TableView → List DmlWrite → TableView → Prop
  | nil (view : TableView) : Accepts validTime view [] view
  | cons {view view' : TableView} {w : DmlWrite} {ws : List DmlWrite}
    {after : Option (Option Bytes)}
      (leaves : w.op.Leaves validTime (view w.key) after)
      (rest : Accepts validTime (Function.update view w.key after) ws view') :
      Accepts validTime view (w :: ws) view'

/-- A transaction of one table: all its writes carry its instant, and are numbered in order. -/
structure TableTxn where
  /-- Its commit instant. -/
  now : SystemTimeMicros
  /-- Its identifier, if other tables take part. -/
  txnId : Option TxnId
  /-- Its writes. -/
  writes : List DmlWrite
  at_now : ∀ w ∈ writes, w.now = now
  numbered : SeqContract writes

/-- What a transaction does to the newest map: it replaces it, or is refused and leaves it, for its
rows only if they do not take its writes.  The commit of one that replaces it may still be reported
as failed: its record counts, its fsync did not go through. -/
inductive TableTxn.Step (validTime : Bool) (view : TableView) (txn : TableTxn) :
    Except DmlError Unit → TableView → Prop
  | commits {view' : TableView} {result : Except DmlError Unit}
      (accepts : Accepts validTime view txn.writes view') : Step validTime view txn result view'
  | refused (err : DmlError)
      (why : err.OfRow → ∀ view', ¬ Accepts validTime view txn.writes view') :
      Step validTime view txn (.error err) view

/-- The maps that were published, the newest first, each with the instant it holds from. -/
abbrev Published := List (SystemTimeMicros × TableView)

/-- The map that holds at an instant: the newest one that was published by then, or `base`. -/
def Published.at_ (log : Published) (base : TableView) (s : SystemTimeMicros) : TableView :=
  ((log.find? fun entry => entry.1 ≤ s).map Prod.snd).getD base

/-- A run of transactions with their results, and what it publishes. -/
inductive TableTxn.Run (validTime : Bool) :
    TableView → List (TableTxn × Except DmlError Unit) → Published → Prop
  | nil (view : TableView) : Run validTime view [] []
  | cons {view view' : TableView} {txn : TableTxn} {result : Except DmlError Unit}
      {rest : List (TableTxn × Except DmlError Unit)} {log : Published}
      (step : txn.Step validTime view result view') (run : Run validTime view' rest log) :
      Run validTime view ((txn, result) :: rest) (log ++ [(txn.now, view')])

namespace Published

variable {log : Published} {base view : TableView} {t s : SystemTimeMicros}

theorem at_append_of_le (h : t ≤ s) : at_ (log ++ [(t, view)]) base s = at_ log view s := by
  rw [at_, at_, List.find?_append]
  cases log.find? fun entry => entry.1 ≤ s with
  | none => simp [h]
  | some entry => rfl

theorem at_append_of_lt (h : s < t) : at_ (log ++ [(t, view)]) base s = at_ log base s := by
  rw [at_, at_, List.find?_append]
  cases log.find? fun entry => entry.1 ≤ s with
  | none => simp [not_le.2 h]
  | some entry => rfl

end Published

/-! ### Transactions -/

namespace Engine

variable {e₀ e e' : Engine} {H₀ H : History}

namespace InGroup

/-- The versions in the segments are those from before the transaction. -/
theorem sealedVersions (h : InGroup e₀ e H₀ H) : e.sealedVersions = e₀.sealedVersions := by
  rw [h.rest]

/-- **A write of a transaction that is accepted** is the next event of its key. -/
theorem write_ok (h : InGroup e₀ e H₀ H) (h₀ : Stores e₀.tiers e₀.sealedVersions H₀) {w : DmlWrite}
    (hclock : e₀.writer.writer.Bounds H₀ w.now)
    (hseq : ∀ ev ∈ H w.key, ev.instant = w.now → ∀ x ∈ ev.value, ∀ b ∈ w.seq, x.1 < b)
    {commit : SystemTimeMicros} (hw : e.write w = (e', .ok commit)) :
    ∃ a, w.op.Leaves e.writer.validTime (H.current w.key) (a.map Prod.snd) ∧
      a.map Prod.fst = w.seq ∧ e'.writer.validTime = e.writer.validTime ∧
      InGroup e₀ e' H₀ (H.write w.key (keyEvent w.now w.txnId w.principal a)) := by
  have hs := h.stores h₀
  have hclock' := h.bounds hclock
  obtain ⟨rs, hg, hwr, happ⟩ := h.applied
  rcases hstage : e.writer.stage e.tiers e₀.sealedVersions w with ⟨writer, err | ⟨c, rs'⟩⟩
  · simp only [Engine.write, DmlWriter.write, h.sealedVersions, hstage] at hw
    cases hw
  obtain ⟨rfl, rfl, hprev, hnow, a, hstaged, ha, hleaves⟩ :=
    hs.stage_ok (fun hprev => hclock' hprev w.key) hstage
  have hle := hclock' hprev
  have hwf := hs.wellFormed.write_staged hle hnow ha hseq
  simp only [Engine.write, DmlWriter.write, h.sealedVersions, hstage, DmlWriter.logAndApply, hg,
    h.bulk, Bool.false_eq_true, if_false, applyResident] at hw
  rcases happ' : applyRedos false e.tiers rs' with ⟨t', err | _⟩
  · simp only [happ'] at hw
    cases hw
  simp only [happ'] at hw
  cases hw
  have hwr' := hstaged.writes (encodable_of_applyRedos happ') hwf
  refine ⟨a, hleaves, ha, rfl, ?_, h.wal, rfl, ⟨rs ++ rs', rfl, hwr.trans hwr', ?_⟩, ?_⟩
  · conv_lhs => rw [h.rest]
  · rw [applyRedos_append, happ]
    exact happ'
  · exact .inr ⟨w.now, rfl, History.le_of_mem_write hle⟩

/-- A write of a transaction is refused for its row only if its key does not take it. -/
theorem write_error (h : InGroup e₀ e H₀ H) (h₀ : Stores e₀.tiers e₀.sealedVersions H₀)
    {w : DmlWrite} (hclock : e₀.writer.writer.Bounds H₀ w.now) {err : DmlError}
    (hw : e.write w = (e', .error err)) (hrow : err.OfRow) (after : Option (Option Bytes)) :
    ¬ w.op.Leaves e.writer.validTime (H.current w.key) after := by
  have hs := h.stores h₀
  obtain ⟨rs, hg, -⟩ := h.applied
  rcases hstage : e.writer.stage e.tiers e₀.sealedVersions w with ⟨writer, err' | ⟨c, rs'⟩⟩
  · simp only [Engine.write, DmlWriter.write, h.sealedVersions, hstage] at hw
    cases hw
    exact hs.stage_error (fun hprev => h.bounds hclock hprev w.key) hstage hrow after
  · simp only [Engine.write, DmlWriter.write, h.sealedVersions, hstage, DmlWriter.logAndApply, hg,
      h.bulk, Bool.false_eq_true, if_false, applyResident] at hw
    rcases happ : applyRedos false e.tiers rs' with ⟨t', err' | _⟩
    · simp only [happ] at hw
      cases hw
      exact hrow.elim
    · simp only [happ] at hw
      cases hw

/-- **The writes of a transaction that are accepted**, one after another. -/
theorem writeAll_ok (h : InGroup e₀ e H₀ H) (h₀ : Stores e₀.tiers e₀.sealedVersions H₀)
    {t : SystemTimeMicros} {ws : List DmlWrite} (hnow : ∀ w ∈ ws, w.now = t)
    (hclock : e₀.writer.writer.Bounds H₀ t) (htakes : H.Takes ws)
    (hw : e.writeAll ws = (e', .ok ())) :
    ∃ H', InGroup e₀ e' H₀ H' ∧ Accepts e.writer.validTime H.current ws H'.current ∧
      H'.From H ws ∧ ∀ k, ∀ s < t, stateAt (H' k) s = stateAt (H k) s := by
  induction ws generalizing e H with
  | nil =>
    cases hw
    exact ⟨H, h, .nil _, .refl H _, fun _ _ _ => rfl⟩
  | cons w ws ih =>
    have hwt : w.now = t := hnow w List.mem_cons_self
    rw [Engine.writeAll] at hw
    rcases hwrite : e.write w with ⟨e₁, err | commit⟩
    · rw [hwrite] at hw
      cases hw
    rw [hwrite] at hw
    obtain ⟨a, hleaves, ha, hpolicy, hin⟩ := h.write_ok h₀ (hwt ▸ hclock) htakes.head hwrite
    have hfrom := History.From.write (H := H) ha
    obtain ⟨H', hin', hacc, hfrom', hpast⟩ :=
      ih hin (fun w' hw' => hnow w' (List.mem_cons_of_mem _ hw')) (htakes.tail hfrom) hw
    refine ⟨H', hin', .cons hleaves ?_, hfrom.trans hfrom', fun k s hs => ?_⟩
    · rw [hpolicy] at hacc
      exact (History.update_current H w.key (keyEvent w.now w.txnId w.principal a)).symm ▸ hacc
    · rw [hpast k s hs]
      by_cases hk : k = w.key
      · subst hk
        rw [History.write_self]
        exact stateAt_cons_of_lt (hwt.symm ▸ hs) _
      · rw [History.write_of_ne hk]

/-- The writes of a transaction are refused for a row only if the rows do not take them. -/
theorem writeAll_error (h : InGroup e₀ e H₀ H) (h₀ : Stores e₀.tiers e₀.sealedVersions H₀)
    {t : SystemTimeMicros} {ws : List DmlWrite} (hnow : ∀ w ∈ ws, w.now = t)
    (hclock : e₀.writer.writer.Bounds H₀ t) (htakes : H.Takes ws) {err : DmlError}
    (hw : e.writeAll ws = (e', .error err)) (hrow : err.OfRow) (view' : TableView) :
    ¬ Accepts e.writer.validTime H.current ws view' := by
  induction ws generalizing e H with
  | nil => cases hw
  | cons w ws ih =>
    intro hacc
    have hwt : w.now = t := hnow w List.mem_cons_self
    rw [Engine.writeAll] at hw
    cases hacc with
    | cons leaves rest =>
      rcases hwrite : e.write w with ⟨e₁, err₁ | commit⟩
      · rw [hwrite] at hw
        cases hw
        exact h.write_error h₀ (hwt ▸ hclock) hwrite hrow _ leaves
      · rw [hwrite] at hw
        obtain ⟨a, hleaves, ha, hpolicy, hin⟩ := h.write_ok h₀ (hwt ▸ hclock) htakes.head hwrite
        -- the rest of the writes meet what this one left
        rw [← hleaves.unique leaves, ← hpolicy] at rest
        exact ih hin (fun w' hw' => hnow w' (List.mem_cons_of_mem _ hw'))
          (htakes.tail (History.From.write ha)) hw
          (History.update_current H w.key (keyEvent w.now w.txnId w.principal a) ▸ rest)

/-- A commit is never refused for a row. -/
theorem not_ofRow_finishGroup {txnId : Option TxnId} {err : DmlError}
    (h : (e.finishGroup txnId).2 = .error err) : ¬ err.OfRow := by
  simp only [Engine.finishGroup, DmlWriter.finishGroup] at h
  split at h
  · cases h
  split at h
  · next happ =>
    cases h
    exact not_ofRow_appendGroupRecord happ
  split at h
  · cases h
    exact id
  · cases h

end InGroup

/-- What a call of the write path left is stored. -/
theorem Wrote.stores (h : e₀.Wrote H₀ e H)
    (h₀ : Stores e₀.tiers e₀.sealedVersions H₀) : Stores e.tiers e.sealedVersions H := by
  cases h with
  | refused idle wal same stamp => exact same.stores h₀
  | logged idle wal writes stores staged stamp => exact stores

theorem gains_writeEvery {e : Engine} (ws : List DmlWrite) :
    Gains (fun _ => True) e (e.writeAll ws).1 := by
  induction ws generalizing e with
  | nil => exact .refl e
  | cons w ws ih =>
    have hw := (gains_write e w).weaken (Q := fun _ => True) fun _ _ => trivial
    rw [writeAll]
    rcases hr : e.write w with ⟨e₁, err | commit⟩
    · rw [hr] at hw
      exact hw
    · rw [hr] at hw
      exact hw.trans ih

/-- A transaction does not change whether the table has periods. -/
theorem validTime_groupCommit (e : Engine) (ws : List DmlWrite) (txnId : Option TxnId) :
    (e.groupCommit ws txnId).1.writer.validTime = e.writer.validTime := by
  have hall := (gains_beginGroup e).trans (gains_writeEvery (e := e.beginGroup) ws)
  rw [groupCommit]
  rcases hr : e.beginGroup.writeAll ws with ⟨e₁, err | _⟩
  · rw [hr] at hall
    exact (hall.trans (gains_abortGroup e₁)).validTime
  · rw [hr] at hall
    exact (hall.trans (gains_finishGroup e₁ txnId)).validTime

/-- **A transaction is a step of the map**: read from its instant on, the table carries what its
writes leave, or what it carried; read before, nothing has changed. -/
theorem groupCommit_step {e : Engine} {H : History} (hs : Stores e.tiers e.sealedVersions H)
    (txn : TableTxn) (hfresh : ∀ k, ∀ ev ∈ H k, ev.instant < txn.now) :
    ∃ H', e.Wrote H (e.groupCommit txn.writes txn.txnId).1 H' ∧
      txn.Step e.writer.validTime H.current (e.groupCommit txn.writes txn.txnId).2 H'.current ∧
      (∀ k, ∀ ev ∈ H' k, ev.instant ≤ txn.now) ∧
      ∀ k, ∀ s < txn.now, stateAt (H' k) s = stateAt (H k) s := by
  have htakes : H.Takes txn.writes := by
    refine ⟨txn.numbered, fun w hw ev hev hnow => ?_⟩
    exact absurd (hnow.trans (txn.at_now w hw)) (hfresh _ ev hev).ne
  have hclock : e.writer.writer.Bounds H txn.now := fun _ k ev hev => (hfresh k ev hev).le
  have hold : ∀ k, ∀ ev ∈ H k, ev.instant ≤ txn.now := fun k ev hev => (hfresh k ev hev).le
  have hin := inGroup_beginGroup e H
  rcases hw : e.beginGroup.writeAll txn.writes with ⟨e', err | _⟩
  · -- a write is refused, and the ones before it are taken back
    rcases hin.writeAll hs (fun w hw => txn.at_now w hw ▸ hclock) htakes with
      ⟨e₁, H₁, hok, -⟩ | ⟨e₁, err₁, herr, hfail⟩
    · rw [hw] at hok
      cases hok
    rw [hw] at herr
    cases herr
    rw [groupCommit, hw]
    have hwhy : err.OfRow → ∀ view', ¬ Accepts e.writer.validTime H.current txn.writes view' :=
      hin.writeAll_error hs txn.at_now hclock htakes hw
    exact ⟨H, hfail.abortGroup, .refused err hwhy, hold, fun _ _ _ => rfl⟩
  obtain ⟨H', hin', hacc, hfrom, hpast⟩ := hin.writeAll_ok hs txn.at_now hclock htakes hw
  have hnew : ∀ k, ∀ ev ∈ H' k, ev.instant ≤ txn.now := by
    intro k ev hev
    rcases hfrom k ev hev with hev | ⟨w, hw, -, hinst, -⟩
    · exact hold k ev hev
    · exact (hinst.symm.trans (txn.at_now w hw)).le
  obtain ⟨hok, H'', hH, hwrote⟩ := hin'.finishGroup hs txn.txnId
  rw [groupCommit, hw]
  rcases hres : (e'.finishGroup txn.txnId).2 with err | _
  · rcases hH with rfl | rfl
    · have hrow : ¬ err.OfRow := InGroup.not_ofRow_finishGroup hres
      exact ⟨_, hwrote, .refused err fun h => absurd h hrow, hold, fun _ _ _ => rfl⟩
    · exact ⟨_, hwrote, .commits hacc, hnew, hpast⟩
  · exact ⟨H', hok hres, .commits hacc, hnew, hpast⟩

/-- Below the maps that are published after it lies the map of a transaction, from its instant
on. -/
theorem published_below {e e' : Engine} {H H' : History} {t : SystemTimeMicros}
    (hs : Stores e.tiers e.sealedVersions H) (hs' : Stores e'.tiers e'.sealedVersions H')
    (hle : ∀ k, ∀ ev ∈ H' k, ev.instant ≤ t)
    (hpast : ∀ k, ∀ s < t, stateAt (H' k) s = stateAt (H k) s) (log : Published)
    {s : SystemTimeMicros} (hopen : s < systemTimeOpen) (k : BusinessKey) :
    log.at_ (fun k => (e'.asOf k s).map Version.payload) s k =
      Published.at_ (log ++ [(t, H'.current)]) (fun k => (e.asOf k s).map Version.payload) s k := by
  rcases le_or_gt t s with h | h
  · have hview : (fun k => (e'.asOf k s).map Version.payload) = H'.current := by
      funext k'
      exact asOf_current hs' hopen fun ev hev => (hle k' ev hev).trans h
    rw [Published.at_append_of_le h, hview]
  · have hview : (fun k => (e'.asOf k s).map Version.payload) =
        fun k => (e.asOf k s).map Version.payload := by
      funext k'
      rw [asOf_stateAt hs' k' hopen, asOf_stateAt hs k' hopen, hpast k' s h]
    rw [Published.at_append_of_lt h, hview]

/-- Transactions in order, each with its result. -/
def runTxns : Engine → List TableTxn → Engine × List (TableTxn × Except DmlError Unit)
  | e, [] => (e, [])
  | e, txn :: txns =>
    let r := e.groupCommit txn.writes txn.txnId
    let rest := r.1.runTxns txns
    (rest.1, (txn, r.2) :: rest.2)

/-- **A run of transactions refines the versioned map**: whatever the log refuses, there is a run of
the map with the same results, and read as of any instant the table is the map that was published
last by then; before the first of them it is what it was. -/
theorem runTxns_refines {e : Engine} {H : History} (hs : Stores e.tiers e.sealedVersions H)
    {txns : List TableTxn} (hfresh : ∀ txn ∈ txns, ∀ k, ∀ ev ∈ H k, ev.instant < txn.now)
    (hinc : txns.Pairwise fun older newer => older.now < newer.now) :
    ∃ log, TableTxn.Run e.writer.validTime H.current (e.runTxns txns).2 log ∧
      ∀ k s, s < systemTimeOpen → ((e.runTxns txns).1.asOf k s).map Version.payload =
        log.at_ (fun k => (e.asOf k s).map Version.payload) s k := by
  induction txns generalizing e H with
  | nil => exact ⟨[], .nil _, fun _ _ _ => rfl⟩
  | cons txn txns ih =>
    obtain ⟨hlt, hrest⟩ := List.pairwise_cons.1 hinc
    obtain ⟨H', hw, hstep, hle, hpast⟩ := groupCommit_step hs txn (hfresh txn List.mem_cons_self)
    have hs' := hw.stores hs
    obtain ⟨log, hrun, hread⟩ := ih hs'
      (fun txn' h' k ev hev => (hle k ev hev).trans_lt (hlt txn' h')) hrest
    rw [validTime_groupCommit] at hrun
    refine ⟨log ++ [(txn.now, H'.current)], .cons hstep hrun, fun k s hopen => ?_⟩
    rw [runTxns, hread k s hopen]
    exact published_below hs hs' hle hpast log hopen k

end Engine

/-! ### Transactions and upkeep -/

/-- What happens to a table: transactions, and the upkeep of its storage between them. -/
inductive TableCall where
  | txn (txn : TableTxn)
  /-- Seal what is staged. -/
  | flush
  /-- Merge the live segments. -/
  | compact
  /-- Record the durable end of the log. -/
  | checkpoint

/-- The transactions among the calls. -/
def TableCall.txns : List TableCall → List TableTxn
  | [] => []
  | .txn t :: calls => t :: txns calls
  | .flush :: calls => txns calls
  | .compact :: calls => txns calls
  | .checkpoint :: calls => txns calls

namespace Engine

/-- Calls in order; the transactions with their results. -/
def runCalls : Engine → List TableCall → Engine × List (TableTxn × Except DmlError Unit)
  | e, [] => (e, [])
  | e, .txn txn :: calls =>
    let r := e.groupCommit txn.writes txn.txnId
    let rest := r.1.runCalls calls
    (rest.1, (txn, r.2) :: rest.2)
  | e, .flush :: calls => e.flush.1.runCalls calls
  | e, .compact :: calls => e.compact.1.runCalls calls
  | e, .checkpoint :: calls => e.checkpoint.1.runCalls calls

/-! ### What upkeep keeps in memory -/

/-- The engine stores the histories `H`, and what it can read of its live segments are the sealed
versions it has in memory.  Nothing is said of the log and of the manifest. -/
structure Resident (e : Engine) (H : History) : Prop where
  stores : Stores e.tiers e.sealedVersions H
  below : ∀ i ∈ e.liveSegments, i < e.nextSegmentIndex
  read : ∀ s, readSegments e.segments e.liveSegments = some s →
    ∀ v, v ∈ s.versions ↔ v ∈ e.sealedVersions

/-- A disk that works keeps more than this. -/
theorem Sound.resident {e : Engine} {H : History} (h : e.Sound H) : e.Resident H where
  stores := h.stores
  below := by
    obtain ⟨Hf, hcov, -⟩ := h.covers
    exact hcov.below
  read s hs v := by
    obtain ⟨Hf, hcov, hsealed⟩ := h.covers
    obtain ⟨s', hs', hversions, -⟩ := hcov.read
    rw [hs] at hs'
    cases hs'
    rw [hversions, hsealed]

namespace Resident

variable {e e' : Engine} {H : History}

/-- What the live segments and the tiers hold stays; log, manifest and other files may change. -/
theorem congr (h : e.Resident H) (htiers : e'.tiers = e.tiers)
    (hsealed : e'.sealedVersions = e.sealedVersions) (hlive : e'.liveSegments = e.liveSegments)
    (hnext : e'.nextSegmentIndex = e.nextSegmentIndex)
    (hfiles : ∀ i < e.nextSegmentIndex, e'.segments[i]? = e.segments[i]?) : e'.Resident H where
  stores := by rw [htiers, hsealed]; exact h.stores
  below := by rw [hlive, hnext]; exact h.below
  read s hs := by
    rw [hlive, readSegments_congr fun i hi => hfiles i (h.below i hi)] at hs
    rw [hsealed]
    exact h.read s hs

theorem tick (h : e.Resident H) : e.tick.1.Resident H := by
  unfold Engine.tick
  split <;> exact h.congr rfl rfl rfl rfl fun _ _ => rfl

theorem store (h : e.Resident H) (p : RecoveryPoint) : (e.store p).1.Resident H := by
  unfold Engine.store
  dsimp only
  split <;> exact h.congr rfl rfl rfl rfl fun _ _ => rfl

/-- Whatever becomes of the file at the next index. -/
theorem sealSegment (h : e.Resident H) (s : Segment) :
    (e.sealSegment e.nextSegmentIndex s).1.Resident H := by
  unfold Engine.sealSegment
  dsimp only
  split
  · refine h.congr rfl rfl rfl rfl fun i hi => ?_
    rw [OrdMap.getElem?_insert, if_neg hi.ne']
  · refine h.congr rfl rfl rfl rfl fun i hi => ?_
    rw [OrdMap.getElem?_erase, if_neg hi.ne']

/-- What a call of the write path left. -/
theorem wrote (h : e.Resident H) {H' : History} (hw : e.Wrote H e' H') : e'.Resident H' := by
  have hs := hw.stores h.stores
  cases hw with
  | refused | logged => exact ⟨hs, h.below, h.read⟩

theorem checkpoint (h : e.Resident H) : e.checkpoint.1.Resident H := by
  have h₁ := h.tick
  unfold Engine.checkpoint
  rcases htick : e.tick with ⟨e₁, err | ⟨⟩⟩
  all_goals
    rw [htick] at h₁
    dsimp only
  · exact h₁
  have h₂ := h₁.store ⟨e₁.replayFloor, e₁.writer.wal.durableEnd, e₁.liveSegments⟩
  rcases hstore : e₁.store ⟨e₁.replayFloor, e₁.writer.wal.durableEnd, e₁.liveSegments⟩
    with ⟨e₂, err | ⟨⟩⟩
  all_goals
    rw [hstore] at h₂
    dsimp only
  · exact h₂
  · exact h₂.congr rfl rfl rfl rfl fun _ _ => rfl

/-- What a seal that went through did. -/
theorem sealSegment_ok {idx : ℕ} {s : Segment} (h : e.sealSegment idx s = (e', .ok ())) :
    e' = { e with segmentFaults := e.segmentFaults.tail, segments := e.segments.insert idx s } := by
  unfold Engine.sealSegment at h
  dsimp only at h
  split at h
  · exact (congrArg Prod.fst h).symm
  · cases congrArg Prod.snd h

/-- A manifest record that went through is in memory only a record. -/
theorem store_ok {p : RecoveryPoint} (h : e.store p = (e', .ok ())) :
    e' = { e with manifestFaults := e.manifestFaults.tail
                  manifest := e.manifest ++ [some p] } := by
  unfold Engine.store at h
  dsimp only at h
  split at h
  · exact (congrArg Prod.fst h).symm
  all_goals cases congrArg Prod.snd h

theorem flush (h : e.Resident H) : e.flush.1.Resident H := by
  have h₁ := h.tick
  unfold Engine.flush
  rcases htick : e.tick with ⟨e₁, err | ⟨⟩⟩
  all_goals
    rw [htick] at h₁
    dsimp only
  · exact h₁
  split
  · -- nothing is staged
    have h₂ := h₁.store ⟨e₁.replayFloor, e₁.writer.wal.durableEnd, e₁.liveSegments⟩
    rcases hstore : e₁.store ⟨e₁.replayFloor, e₁.writer.wal.durableEnd, e₁.liveSegments⟩
      with ⟨e₂, err | ⟨⟩⟩
    all_goals
      rw [hstore] at h₂
      dsimp only
    · exact h₂
    · exact h₂.congr rfl rfl rfl rfl fun _ _ => rfl
  -- what is staged
  generalize hstaged : ({
    versions := e₁.tiers.delta.stagedVersions
    retractions := e₁.tiers.delta.stagedRetractions } : Segment) = staged
  have h₂ := h₁.sealSegment staged
  rcases hseal : e₁.sealSegment e₁.nextSegmentIndex staged with ⟨e₂, err | ⟨⟩⟩
  all_goals
    rw [hseal] at h₂
    dsimp only
  · exact h₂
  have h₃ := h₂.store ⟨e₁.writer.wal.durableEnd, e₁.writer.wal.durableEnd,
    e₂.liveSegments ++ [e₁.nextSegmentIndex]⟩
  rcases hstore : e₂.store ⟨e₁.writer.wal.durableEnd, e₁.writer.wal.durableEnd,
    e₂.liveSegments ++ [e₁.nextSegmentIndex]⟩ with ⟨e₃, err | ⟨⟩⟩
  all_goals
    rw [hstore] at h₃
    dsimp only
  · exact h₃
  rw [store_ok hstore, sealSegment_ok hseal]
  subst hstaged
  refine ⟨h₁.stores.sealStaged fun v => List.mem_append, fun i hi => ?_, fun s hs v => ?_⟩
  · rcases List.mem_append.1 hi with hi | hi
    · exact (h₁.below i hi).trans (Nat.lt_succ_self _)
    · rw [List.mem_singleton.1 hi]
      exact Nat.lt_succ_self _
  · -- the live segments are as they were, and the new one holds what was staged
    have hfiles : ∀ i ∈ e₁.liveSegments, (e₁.segments.insert e₁.nextSegmentIndex
        { versions := e₁.tiers.delta.stagedVersions
          retractions := e₁.tiers.delta.stagedRetractions })[i]? = e₁.segments[i]? :=
      fun i hi => by rw [OrdMap.getElem?_insert, if_neg (h₁.below i hi).ne']
    rw [readSegments_append, readSegments_congr hfiles,
      readSegments_singleton ((OrdMap.getElem?_insert ..).trans (if_pos rfl))
        (readable_of_plain _ _)] at hs
    cases hread : readSegments e₁.segments e₁.liveSegments with
    | none =>
      rw [hread] at hs
      cases hs
    | some s' =>
      rw [hread] at hs
      cases hs
      rw [List.mem_append, List.mem_append, h₁.read s' hread]

theorem compact (h : e.Resident H) : e.compact.1.Resident H := by
  have h₁ := h.tick
  unfold Engine.compact
  split
  · exact h
  rcases htick : e.tick with ⟨e₁, err | ⟨⟩⟩
  all_goals
    rw [htick] at h₁
    dsimp only
  · exact h₁
  rcases hread : readSegments e₁.segments e₁.liveSegments with _ | merged
  · exact h₁
  dsimp only
  have h₂ := h₁.sealSegment (e₁.mergedSegment merged)
  rcases hseal : e₁.sealSegment e₁.nextSegmentIndex (e₁.mergedSegment merged)
    with ⟨e₂, err | ⟨⟩⟩
  all_goals
    rw [hseal] at h₂
    dsimp only
  · exact h₂
  have h₃ := h₂.store ⟨e₂.replayFloor, e₁.writer.wal.durableEnd, [e₁.nextSegmentIndex]⟩
  rcases hstore : e₂.store ⟨e₂.replayFloor, e₁.writer.wal.durableEnd, [e₁.nextSegmentIndex]⟩
    with ⟨e₃, err | ⟨⟩⟩
  all_goals
    rw [hstore] at h₃
    dsimp only
  · exact h₃
  rw [store_ok hstore, sealSegment_ok hseal]
  have hsame : ∀ v, v ∈ (e₁.mergedSegment merged).versions ↔ v ∈ e₁.sealedVersions := fun v =>
    List.mem_mergeSort.trans (h₁.read merged hread v)
  refine ⟨h₁.stores.sealed_congr hsame, fun i hi => ?_, fun s hs v => ?_⟩
  · rw [List.mem_singleton.1 hi]
    exact Nat.lt_succ_self _
  · -- the only live segment, if the reader takes it, is the merged one
    dsimp only at hs
    have hnew : e₁.nextSegmentIndex ∉ e₁.liveSegments := fun hi => lt_irrefl _ (h₁.below _ hi)
    by_cases hok : (e₁.mergedSegment merged).Readable
    · rw [readSegments_singleton (s := e₁.mergedSegment merged) ?_ hok] at hs
      · cases hs
        rfl
      · rw [getElem?_foldl_erase hnew, OrdMap.getElem?_insert, if_pos rfl]
    · rw [readSegments_eq_none List.mem_cons_self] at hs
      · cases hs
      · rw [readSegment, getElem?_foldl_erase hnew, OrdMap.getElem?_insert, if_pos rfl]
        simp [hok]

end Resident

/-- Two engines that store the same histories read the same. -/
theorem asOf_congr {e e' : Engine} {H : History} (hs : Stores e.tiers e.sealedVersions H)
    (hs' : Stores e'.tiers e'.sealedVersions H) (k : BusinessKey) {s : SystemTimeMicros}
    (hopen : s < systemTimeOpen) :
    (e'.asOf k s).map Version.payload = (e.asOf k s).map Version.payload := by
  rw [asOf_stateAt hs' k hopen, asOf_stateAt hs k hopen]

/-- Upkeep cannot be told from a run that starts after it. -/
theorem upkeep_transparent {e e' : Engine} {H : History} (h : e.Resident H) (h' : e'.Resident H)
    (hpolicy : e'.writer.validTime = e.writer.validTime) {final : Engine}
    {results : List (TableTxn × Except DmlError Unit)}
    (hrun : ∃ log, TableTxn.Run e'.writer.validTime H.current results log ∧
      ∀ k s, s < systemTimeOpen → (final.asOf k s).map Version.payload =
        log.at_ (fun k => (e'.asOf k s).map Version.payload) s k) :
    ∃ log, TableTxn.Run e.writer.validTime H.current results log ∧
      ∀ k s, s < systemTimeOpen → (final.asOf k s).map Version.payload =
        log.at_ (fun k => (e.asOf k s).map Version.payload) s k := by
  obtain ⟨log, hlog, hread⟩ := hrun
  refine ⟨log, hpolicy ▸ hlog, fun k s hopen => ?_⟩
  have hview : (fun k => (e'.asOf k s).map Version.payload) =
      fun k => (e.asOf k s).map Version.payload := by
    funext k'
    exact asOf_congr h.stores h'.stores k' hopen
  rw [hread k s hopen, hview]

/-- **A run with upkeep refines the versioned map**: sealing, merging and checkpoints between the
transactions, whatever the disk makes of them, cannot be told from the reads. -/
theorem runCalls_refines {e : Engine} {H : History} (h : e.Resident H) {calls : List TableCall}
    (hfresh : ∀ txn ∈ TableCall.txns calls, ∀ k, ∀ ev ∈ H k, ev.instant < txn.now)
    (hinc : (TableCall.txns calls).Pairwise fun older newer => older.now < newer.now) :
    ∃ log, TableTxn.Run e.writer.validTime H.current (e.runCalls calls).2 log ∧
      ∀ k s, s < systemTimeOpen → ((e.runCalls calls).1.asOf k s).map Version.payload =
        log.at_ (fun k => (e.asOf k s).map Version.payload) s k := by
  induction calls generalizing e H with
  | nil => exact ⟨[], .nil _, fun _ _ _ => rfl⟩
  | cons c calls ih =>
    cases c with
    | txn txn =>
      obtain ⟨hlt, hrest⟩ := List.pairwise_cons.1 hinc
      obtain ⟨H', hw, hstep, hle, hpast⟩ :=
        groupCommit_step h.stores txn (hfresh txn List.mem_cons_self)
      have h' := h.wrote hw
      obtain ⟨log, hrun, hread⟩ :=
        ih h' (fun txn' hmem k ev hev => (hle k ev hev).trans_lt (hlt txn' hmem)) hrest
      rw [validTime_groupCommit] at hrun
      refine ⟨log ++ [(txn.now, H'.current)], .cons hstep hrun, fun k s hopen => ?_⟩
      rw [runCalls, hread k s hopen]
      exact published_below h.stores h'.stores hle hpast log hopen k
    | flush =>
      have hpolicy := (gains_flush (P := fun _ => True) e).validTime
      exact upkeep_transparent h h.flush hpolicy (ih h.flush hfresh hinc)
    | compact =>
      have hpolicy := (gains_compact (P := fun _ => True) e).validTime
      exact upkeep_transparent h h.compact hpolicy (ih h.compact hfresh hinc)
    | checkpoint =>
      have hpolicy := (gains_checkpoint (P := fun _ => True) e).validTime
      exact upkeep_transparent h h.checkpoint hpolicy (ih h.checkpoint hfresh hinc)

/-- `INSERT` of the key 1, committed at 10. -/
def insertTxn : TableTxn where
  now := 10
  txnId := none
  writes := [⟨10, [1], 1, [], .insert none (some [7]) 0⟩]
  at_now := by simp
  numbered := List.pairwise_singleton _ _

/-- `DELETE` of the key 1, committed at 20. -/
def deleteTxn : TableTxn where
  now := 20
  txnId := some 2
  writes := [⟨20, [1], 2, [], .delete⟩]
  at_now := by simp
  numbered := List.pairwise_singleton _ _

theorem runTxns_insert_delete :
    ∃ log, TableTxn.Run false History.empty.current
        (({} : Engine).runTxns [insertTxn, deleteTxn]).2 log ∧
      ∀ k s, s < systemTimeOpen →
        ((({} : Engine).runTxns [insertTxn, deleteTxn]).1.asOf k s).map Version.payload =
          log.at_ (fun k => (({} : Engine).asOf k s).map Version.payload) s k := by
  have hs : Stores ({} : Engine).tiers ({} : Engine).sealedVersions History.empty :=
    Stores.empty {} {}
  have hinc : insertTxn.now < deleteTxn.now := by decide
  exact runTxns_refines hs (fun _ _ _ ev hev => absurd hev List.not_mem_nil)
    (List.pairwise_pair.2 hinc)

theorem runCalls_insert_flush_delete :
    ∃ log, TableTxn.Run false History.empty.current
        (({} : Engine).runCalls [.txn insertTxn, .flush, .txn deleteTxn]).2 log ∧
      ∀ k s, s < systemTimeOpen →
        ((({} : Engine).runCalls [.txn insertTxn, .flush, .txn deleteTxn]).1.asOf k s).map
            Version.payload =
          log.at_ (fun k => (({} : Engine).asOf k s).map Version.payload) s k := by
  have hinc : insertTxn.now < deleteTxn.now := by decide
  exact runCalls_refines (sound_empty false []).resident
    (fun _ _ _ ev hev => absurd hev List.not_mem_nil) (List.pairwise_pair.2 hinc)

end Engine

end SteleDb
