import SteleDb.Storage.Engine
import SteleDb.Storage.Undo

/-!
# What a write does

Single writes and transactions go through the log: the redo set of a write that is accepted becomes
a record, and the tiers hold what the records say.  A write that is refused, or that the log does
not take, leaves the table as it was; this does not depend on what the log's disk does.

* `Engine.Wrote` : what a call of the write path can do to an engine;
* `Engine.wrote_write`, `Engine.wrote_groupCommit` : single writes and transactions do no more.
-/

namespace SteleDb

open Timeline

/-! ### The log -/

/-- The log takes records, and its disk works. -/
structure Wal.Healthy (w : Wal) : Prop where
  alive : w.poisoned = false
  appends : w.appendFaults.Clean
  syncs : w.syncFaults.Clean

/-- `w'` is the log `w` with the records `rs` appended, whatever else happened. -/
structure Wal.Extends (w : Wal) (rs : List WalRecord) (w' : Wal) : Prop where
  records : w'.records = w.records ++ rs
  durable : w.durableEnd ≤ w.records.length →
    w.durableEnd ≤ w'.durableEnd ∧ w'.durableEnd ≤ w'.records.length
  healthy : w.Healthy → w'.Healthy

namespace Wal

variable {w w' : Wal}

theorem Extends.refl (w : Wal) : w.Extends [] w :=
  ⟨(List.append_nil _).symm, fun h => ⟨le_rfl, h⟩, id⟩

theorem Extends.trans {w'' : Wal} {rs rs' : List WalRecord} (h : w.Extends rs w')
    (h' : w'.Extends rs' w'') : w.Extends (rs ++ rs') w'' where
  records := by rw [h'.records, h.records, List.append_assoc]
  durable := fun hb =>
    have h₁ := h.durable hb
    have h₂ := h'.durable h₁.2
    ⟨h₁.1.trans h₂.1, h₂.2⟩
  healthy := fun hh => h'.healthy (h.healthy hh)

theorem Extends.same (h : w.Extends [] w') : w'.records = w.records :=
  h.records.trans (List.append_nil _)

/-- An fsync covers every record, or poisons the log. -/
theorem tick_cases (w : Wal) :
    (∃ w' err, w.tick = (w', .error err) ∧ w.Extends [] w') ∨
      ∃ w', w.tick = (w', .ok ()) ∧ w.Extends [] w' ∧ w'.durableEnd = w.records.length := by
  have hnil : w.records = w.records ++ [] := (List.append_nil _).symm
  rw [tick]
  split_ifs with hp
  · exact .inl ⟨w, _, rfl, .refl w⟩
  · cases hs : w.syncFaults.next with
    | done =>
      exact .inr ⟨_, rfl, ⟨hnil, fun hb => ⟨hb, le_rfl⟩,
        fun hh => ⟨hh.alive, hh.appends, hh.syncs.tail⟩⟩, rfl⟩
    | failed =>
      exact .inl ⟨_, _, rfl, hnil, fun hb => ⟨le_rfl, hb⟩, fun hh => by cases hh.syncs.next ▸ hs⟩
    | torn =>
      exact .inl ⟨_, _, rfl, hnil, fun hb => ⟨le_rfl, hb⟩, fun hh => by cases hh.syncs.next ▸ hs⟩

/-- A write to the current log file lands as a whole or counts for nothing. -/
theorem appendRecord_cases (w : Wal) (r : WalRecord) (n : ℕ) :
    (∃ w' err, w.appendRecord r n = (w', .error err) ∧ w.Extends [] w') ∨
      ∃ w', w.appendRecord r n = (w', .ok ()) ∧ w.Extends [r] w' := by
  have hnil : w.records = w.records ++ [] := (List.append_nil _).symm
  rw [appendRecord]
  cases hs : w.appendFaults.next with
  | done =>
    refine .inr ⟨_, rfl, rfl, fun hb => ⟨le_rfl, hb.trans ?_⟩,
      fun hh => ⟨hh.alive, hh.appends.tail, hh.syncs⟩⟩
    exact (List.length_append ..).symm ▸ Nat.le_add_right _ _
  | failed =>
    exact .inl ⟨_, _, rfl, hnil, fun hb => ⟨le_rfl, hb⟩, fun hh => by cases hh.appends.next ▸ hs⟩
  | torn =>
    exact .inl ⟨_, _, rfl, hnil, fun hb => ⟨le_rfl, hb⟩, fun hh => by cases hh.appends.next ▸ hs⟩

theorem append_cases (w : Wal) (r : WalRecord) (n : ℕ) :
    (∃ w' err, w.append r n = (w', .error err) ∧ w.Extends [] w') ∨
      ∃ w', w.append r n = (w', .ok ()) ∧ w.Extends [r] w' := by
  rw [append]
  split_ifs with hn hp hrot
  · exact .inl ⟨w, _, rfl, .refl w⟩
  · exact .inl ⟨w, _, rfl, .refl w⟩
  · rcases w.tick_cases with ⟨w₁, err, htick, hext⟩ | ⟨w₁, htick, hext, -⟩
    · exact .inl ⟨w₁, err, by rw [rotate, htick], hext⟩
    · have hrot' : w.rotate = ({ w₁ with fileBytes := 0 }, .ok ()) := by rw [rotate, htick]
      have hext' : w.Extends [] { w₁ with fileBytes := 0 } :=
        ⟨hext.records, hext.durable, fun hh => ⟨(hext.healthy hh).1, (hext.healthy hh).2,
          (hext.healthy hh).3⟩⟩
      rw [hrot']
      rcases appendRecord_cases { w₁ with fileBytes := 0 } r n with
        ⟨w₂, err, happ, hext₂⟩ | ⟨w₂, happ, hext₂⟩
      · exact .inl ⟨w₂, err, happ, hext'.trans hext₂⟩
      · exact .inr ⟨w₂, happ, hext'.trans hext₂⟩
  · exact w.appendRecord_cases r n

namespace Healthy

theorem tick (h : w.Healthy) : ∃ w', w.tick = (w', .ok ()) ∧ w'.records = w.records ∧ w'.Healthy ∧
    w'.durableEnd = w.records.length ∧ w'.fileBytes = w.fileBytes := by
  refine ⟨{ w with syncFaults := w.syncFaults.tail, durableEnd := w.records.length }, ?_, rfl,
    ⟨h.alive, h.appends, h.syncs.tail⟩, rfl, rfl⟩
  simp [Wal.tick, h.alive, h.syncs.next]

theorem appendRecord (h : w.Healthy) (r : WalRecord) (n : ℕ) :
    ∃ w', w.appendRecord r n = (w', .ok ()) ∧ w'.records = w.records ++ [r] ∧ w'.Healthy := by
  refine ⟨{ w with appendFaults := w.appendFaults.tail, records := w.records ++ [r]
                   fileBytes := w.fileBytes + (walHeaderLen + n) }, ?_, rfl,
    ⟨h.alive, h.appends.tail, h.syncs⟩⟩
  simp only [Wal.appendRecord, h.appends.next]

/-- An append fails only on the size of the record. -/
theorem append (h : w.Healthy) (r : WalRecord) {n : ℕ} (hn : n ≤ maxPayloadLen) :
    ∃ w', w.append r n = (w', .ok ()) ∧ w'.records = w.records ++ [r] ∧ w'.Healthy := by
  rw [Wal.append, if_neg (not_lt.2 hn), if_neg (by simp [h.alive])]
  split_ifs with hrot
  · obtain ⟨w₁, hw₁, hr, hh, -, -⟩ := h.tick
    have hrot' : w.rotate = ({ w₁ with fileBytes := 0 }, .ok ()) := by rw [Wal.rotate, hw₁]
    have hh' : ({ w₁ with fileBytes := 0 } : Wal).Healthy := ⟨hh.alive, hh.appends, hh.syncs⟩
    obtain ⟨w₂, hw₂, hr₂, hh₂⟩ := hh'.appendRecord r n
    rw [hrot']
    exact ⟨w₂, hw₂, hr₂.trans (by rw [← hr]), hh₂⟩
  · exact h.appendRecord r n

end Healthy

end Wal

/-- A redo set is logged as a whole or not at all; what is logged fits. -/
theorem appendGroupRecord_cases (w : Wal) (txnId : Option TxnId) (rs : List Redo) :
    (∃ w' e, appendGroupRecord w txnId rs = (w', .error e) ∧ w.Extends [] w') ∨
      ∃ w', appendGroupRecord w txnId rs = (w', .ok ()) ∧ w.Extends [.whole txnId rs] w' ∧
        ∀ r ∈ rs, r.Encodable := by
  cases he : encodeRedo rs with
  | error e => exact .inl ⟨w, e, by rw [appendGroupRecord, he], .refl w⟩
  | ok n =>
    rcases w.append_cases (.whole txnId rs)
      (if txnId.isSome then twoPhaseHeaderLen + n else n) with
      ⟨w', err, happ, hext⟩ | ⟨w', happ, hext⟩
    · exact .inl ⟨w', _, by simp only [appendGroupRecord, he, happ]; rfl, hext⟩
    · exact .inr ⟨w', by simp only [appendGroupRecord, he, happ], hext, encodable_of_encodeRedo he⟩

/-! ### Staging -/

/-- The sequence number of the version a write asserts. -/
def DmlWrite.seq (w : DmlWrite) : Option Seq :=
  match w.op with
  | .insert _ _ seq => some seq
  | .update _ _ seq => some seq
  | .delete => none

/-- No two writes of a key carry one clock reading, unless the later one carries the greater
sequence number: what the callers of the engine provide. -/
def SeqContract (ws : List DmlWrite) : Prop :=
  ws.Pairwise fun older newer => older.key = newer.key → older.now = newer.now →
    ∀ a ∈ older.seq, ∀ b ∈ newer.seq, a < b

/-- Every version of the history was asserted by one of the writes. -/
def FromWrites (H : History) (ws : List DmlWrite) : Prop :=
  ∀ k, ∀ ev ∈ H k, ∀ x ∈ ev.value, ∃ w ∈ ws, w.key = k ∧ w.now = ev.instant ∧ x.1 ∈ w.seq

/-- The writes may follow the history: a version of it at the clock reading of one of them has the
smaller sequence number. -/
structure History.Takes (H : History) (ws : List DmlWrite) : Prop where
  contract : SeqContract ws
  seq_lt : ∀ w ∈ ws, ∀ ev ∈ H w.key, ev.instant = w.now → ∀ x ∈ ev.value, ∀ b ∈ w.seq, x.1 < b

/-- What `H'` has over `H` was written by one of the writes. -/
def History.From (H' H : History) (ws : List DmlWrite) : Prop :=
  ∀ k, ∀ ev ∈ H' k, ev ∈ H k ∨
    ∃ w ∈ ws, w.key = k ∧ w.now = ev.instant ∧ ∀ x ∈ ev.value, x.1 ∈ w.seq

namespace History

variable {H H' : History} {ws : List DmlWrite} {w : DmlWrite}

theorem From.refl (H : History) (ws : List DmlWrite) : H.From H ws := fun _ _ hev => .inl hev

theorem From.trans {H'' : History} {ws' : List DmlWrite} (h : H'.From H ws)
    (h' : H''.From H' ws') : H''.From H (ws ++ ws') := by
  intro k ev hev
  rcases h' k ev hev with hev | ⟨w, hw, hrest⟩
  · rcases h k ev hev with hev | ⟨w, hw, hrest⟩
    · exact .inl hev
    · exact .inr ⟨w, List.mem_append_left _ hw, hrest⟩
  · exact .inr ⟨w, List.mem_append_right _ hw, hrest⟩

theorem From.write {a : Option (Seq × Option Bytes)} (ha : a.map Prod.fst = w.seq) :
    (H.write w.key (keyEvent w.now w.txnId w.principal a)).From H [w] := by
  intro k ev hev
  by_cases hk : k = w.key
  · subst hk
    rw [History.write_self] at hev
    rcases List.mem_cons.1 hev with rfl | hev
    · refine .inr ⟨w, by simp, rfl, rfl, fun x hx => ?_⟩
      rw [← ha, show a = some x from hx]
      rfl
    · exact .inl hev
  · rw [History.write_of_ne hk] at hev
    exact .inl hev

theorem Takes.head (h : H.Takes (w :: ws)) :
    ∀ ev ∈ H w.key, ev.instant = w.now → ∀ x ∈ ev.value, ∀ b ∈ w.seq, x.1 < b :=
  h.seq_lt w List.mem_cons_self

/-- What may follow a history and a write may follow the history with it. -/
theorem Takes.tail (h : H.Takes (w :: ws)) (h' : H'.From H [w]) : H'.Takes ws := by
  obtain ⟨hw, hws⟩ := List.pairwise_cons.1 h.contract
  refine ⟨hws, fun w' hw' ev hev hnow x hx b hb => ?_⟩
  rcases h' _ ev hev with hev | ⟨w₀, hw₀, hkey, hinst, hval⟩
  · exact h.seq_lt w' (List.mem_cons_of_mem _ hw') ev hev hnow x hx b hb
  · obtain rfl := List.mem_singleton.1 hw₀
    exact hw w' hw' hkey (hinst.trans hnow) x.1 (hval x hx) b hb

end History

namespace FromWrites

variable {H H' : History} {past ws : List DmlWrite}

theorem takes (h : FromWrites H past) (hc : SeqContract (past ++ ws)) : H.Takes ws := by
  obtain ⟨-, hws, hcross⟩ := List.pairwise_append.1 hc
  refine ⟨hws, fun w hw ev hev hnow x hx b hb => ?_⟩
  obtain ⟨w', hw', hk, hn, hx'⟩ := h w.key ev hev x hx
  exact hcross w' hw' w hw hk (hn.trans hnow) x.1 hx' b hb

theorem from_ (h : FromWrites H past) (h' : H'.From H ws) : FromWrites H' (past ++ ws) := by
  intro k ev hev x hx
  rcases h' k ev hev with hev | ⟨w, hw, hk, hn, hval⟩
  · obtain ⟨w, hw, hrest⟩ := h k ev hev x hx
    exact ⟨w, List.mem_append_left _ hw, hrest⟩
  · exact ⟨w, List.mem_append_right _ hw, hk, hn, hval x hx⟩

end FromWrites

/-- A write either fails to resolve, or resolves to the redo set of one event of its key. -/
theorem Stores.stage_cases {t : Tiers} {sv : List Version} {H : History} (h : Stores t sv H)
    (dw : DmlWriter) {w : DmlWrite}
    (hle : (∀ prev ∈ dw.writer.lastCommit, prev ≤ w.now) → ∀ ev ∈ H w.key, ev.instant ≤ w.now) :
    (∃ writer e, dw.stage t sv w = (writer, .error e) ∧ (writer = dw.writer ∨
        writer = ⟨some w.now⟩ ∧ ∀ prev ∈ dw.writer.lastCommit, prev ≤ w.now)) ∨
      ∃ a rs, dw.stage t sv w = (⟨some w.now⟩, .ok (w.now, rs)) ∧
        (∀ prev ∈ dw.writer.lastCommit, prev ≤ w.now) ∧ w.now < systemTimeOpen ∧
        StagedAs H w.key (keyEvent w.now w.txnId w.principal a) rs ∧ a.map Prod.fst = w.seq := by
  obtain ⟨now, key, txnId, principal, op⟩ := w
  rcases dw.writer.nextCommitTs_cases now with ⟨err, hts⟩ | ⟨hts, hprev, hnow⟩
  · -- the clock is refused
    left
    cases op with
    | insert valid payload seq =>
      simp only [DmlWriter.stage, SysTimeWriter.stageInsert, hts]
      rcases framePayload dw.validTime valid payload with e | framed <;>
        exact ⟨_, _, rfl, .inl rfl⟩
    | update valid payload seq =>
      simp only [DmlWriter.stage, SysTimeWriter.stageUpdate, hts]
      rcases framePayload dw.validTime valid payload with e | framed <;>
        exact ⟨_, _, rfl, .inl rfl⟩
    | delete =>
      simp only [DmlWriter.stage, SysTimeWriter.stageDelete, hts]
      exact ⟨_, _, rfl, .inl rfl⟩
  · have hle' := hle hprev
    cases op with
    | insert valid payload seq =>
      simp only [DmlWriter.stage]
      rcases framePayload dw.validTime valid payload with e | framed
      · exact .inl ⟨_, _, rfl, .inl rfl⟩
      · by_cases hl : H.Live key
        · simp only [(h.stageInsert hprev hnow hle').1 hl]
          exact .inl ⟨_, _, rfl, .inr ⟨rfl, hprev⟩⟩
        · simp only [(h.stageInsert hprev hnow hle').2 hl]
          exact .inr ⟨some (seq, framed), _, rfl, hprev, hnow,
            .insert hl (a := (seq, framed)) rfl, rfl⟩
    | update valid payload seq =>
      simp only [DmlWriter.stage]
      rcases framePayload dw.validTime valid payload with e | framed
      · exact .inl ⟨_, _, rfl, .inl rfl⟩
      · by_cases hl : H.Live key
        · obtain ⟨p, hp, hst⟩ := hl
          simp only [(h.stageUpdate hprev hnow hle').2 p hp hst]
          exact .inr ⟨some (seq, framed), _, rfl, hprev, hnow,
            .update hp hst (a := (seq, framed)) rfl, rfl⟩
        · simp only [(h.stageUpdate hprev hnow hle').1 hl]
          exact .inl ⟨_, _, rfl, .inr ⟨rfl, hprev⟩⟩
    | delete =>
      simp only [DmlWriter.stage]
      by_cases hl : H.Live key
      · obtain ⟨p, hp, hst⟩ := hl
        simp only [(h.stageDelete hprev hnow hle').2 p hp hst]
        exact .inr ⟨none, _, rfl, hprev, hnow, .delete hp hst rfl, rfl⟩
      · simp only [(h.stageDelete hprev hnow hle').1 hl]
        exact .inl ⟨_, _, rfl, .inr ⟨rfl, hprev⟩⟩

/-! ### Events of a history -/

/-- A write no earlier than the key's events, with a greater sequence number than those at its own
instant, keeps a history well-formed. -/
theorem History.WellFormed.write_keyEvent {H : History} (hH : H.WellFormed) (txnId : TxnId)
    (principal : Bytes) {k : BusinessKey} {now : SystemTimeMicros} {a : Option (Seq × Option Bytes)}
    (hle : ∀ ev ∈ H k, ev.instant ≤ now) (hnow : now < systemTimeOpen)
    (hseq : ∀ ev ∈ H k, ev.instant = now → ∀ x ∈ ev.value, ∀ y ∈ a, x.1 < y.1) :
    (H.write k (keyEvent now txnId principal a)).WellFormed := by
  refine hH.write hle hnow fun y hy ev hev x hx => ?_
  rw [Prod.Lex.toLex_lt_toLex]
  rcases (hle ev hev).lt_or_eq with hlt | heq
  · exact .inl hlt
  · exact .inr ⟨heq, hseq ev hev heq x hx y hy⟩

theorem History.WellFormed.write_staged {H : History} (hH : H.WellFormed) {w : DmlWrite}
    {a : Option (Seq × Option Bytes)} (hle : ∀ k, ∀ ev ∈ H k, ev.instant ≤ w.now)
    (hnow : w.now < systemTimeOpen) (ha : a.map Prod.fst = w.seq)
    (hseq : ∀ ev ∈ H w.key, ev.instant = w.now → ∀ x ∈ ev.value, ∀ b ∈ w.seq, x.1 < b) :
    (H.write w.key (keyEvent w.now w.txnId w.principal a)).WellFormed := by
  refine hH.write_keyEvent _ _ (hle w.key) hnow fun ev hev heq x hx y hy => ?_
  refine hseq ev hev heq x hx y.1 ?_
  rw [← ha, Option.mem_def.1 hy]
  rfl

theorem History.le_of_mem_write {H : History} {w : DmlWrite} {a : Option (Seq × Option Bytes)}
    (hle : ∀ k, ∀ ev ∈ H k, ev.instant ≤ w.now) (k : BusinessKey) (ev : KeyEvent)
    (hev : ev ∈ H.write w.key (keyEvent w.now w.txnId w.principal a) k) : ev.instant ≤ w.now := by
  by_cases hk : k = w.key
  · subst hk
    rw [History.write_self] at hev
    rcases List.mem_cons.1 hev with rfl | hev
    · exact le_rfl
    · exact hle _ ev hev
  · rw [History.write_of_ne hk] at hev
    exact hle k ev hev

/-! ### Single writes -/

/-- The writer's clock is past the events of the history. -/
def SysTimeWriter.Past (w : SysTimeWriter) (H : History) : Prop :=
  ∃ t ∈ w.lastCommit, ∀ k, ∀ ev ∈ H k, ev.instant ≤ t

/-- A reading that the writer's clock admits is past the events of the history. -/
def SysTimeWriter.Bounds (w : SysTimeWriter) (H : History) (now : SystemTimeMicros) : Prop :=
  (∀ prev ∈ w.lastCommit, prev ≤ now) → ∀ k, ∀ ev ∈ H k, ev.instant ≤ now

theorem SysTimeWriter.Past.bounds {w : SysTimeWriter} {H : History} (h : w.Past H)
    (now : SystemTimeMicros) : w.Bounds H now := by
  obtain ⟨t, ht, hle⟩ := h
  exact fun hprev k ev hev => (hle k ev hev).trans (hprev t ht)

/-- What a call of the write path does to an engine outside a transaction: nothing that is kept, or
one more record of the log, which the tiers hold too. -/
inductive Engine.Wrote (e : Engine) (H : History) : Engine → History → Prop
  | refused {dw : DmlWriter} {t' : Tiers} (idle : dw.group = none)
      (wal : e.writer.wal.Extends [] dw.wal) (same : t'.Same e.tiers)
      (stamp : dw.writer.lastCommit = e.writer.writer.lastCommit ∨ dw.writer.Past H) :
      Wrote e H { e with writer := dw, tiers := t' } H
  | logged {dw : DmlWriter} {t' : Tiers} {H' : History} {txnId : Option TxnId} {rs : List Redo}
      (idle : dw.group = none) (wal : e.writer.wal.Extends [.whole txnId rs] dw.wal)
      (writes : Writes H rs H') (stores : Stores t' e.sealedVersions H')
      (staged : Staged e.tiers t' rs)
      (stamp : dw.writer.Past H') : Wrote e H { e with writer := dw, tiers := t' } H'

/-- **A single write** changes nothing, or logs and stores one event of its key. -/
theorem Engine.wrote_write {e : Engine} {H : History} (hs : Stores e.tiers e.sealedVersions H)
    (hidle : e.writer.group = none) {w : DmlWrite} (hclock : e.writer.writer.Bounds H w.now)
    (htakes : H.Takes [w]) : ∃ H', e.Wrote H (e.write w).1 H' ∧ H'.From H [w] := by
  rcases hs.stage_cases e.writer (fun hprev => hclock hprev w.key) with
    ⟨st, err, hstage, hst⟩ | ⟨a, rs, hstage, hprev, hnow, hstaged, ha⟩
  · refine ⟨H, ?_, .refl H _⟩
    simp only [Engine.write, DmlWriter.write, hstage]
    refine .refused hidle (.refl _) (Tiers.Same.refl _) ?_
    rcases hst with rfl | ⟨rfl, hprev⟩
    · exact .inl rfl
    · exact .inr ⟨w.now, rfl, hclock hprev⟩
  · have hle := hclock hprev
    have hwf := hs.wellFormed.write_staged hle hnow ha htakes.head
    simp only [Engine.write, DmlWriter.write, hstage, DmlWriter.logAndApply, hidle]
    rcases appendGroupRecord_cases e.writer.wal none rs with
      ⟨w', err, hlog, hext⟩ | ⟨w', hlog, hext, hfit⟩
    · refine ⟨H, ?_, .refl H _⟩
      simp only [hlog]
      exact .refused rfl hext (Tiers.Same.refl _) (.inr ⟨w.now, rfl, hle⟩)
    · have hwr := hstaged.writes hfit hwf
      obtain ⟨t', ht', hs', hst'⟩ := hs.applyRedos hwr true
      refine ⟨_, ?_, .write ha⟩
      simp only [hlog, apply, ht']
      exact .logged rfl hext hwr hs' hst' ⟨w.now, rfl, History.le_of_mem_write hle⟩

/-! ### Transactions -/

theorem Writes.of_nil {H H' : History} (h : Writes H [] H') : H' = H := by
  cases h
  rfl

/-- The engine `e` is inside a transaction that started at `e₀` and has taken its table from `H₀` to
`H`. -/
structure Engine.InGroup (e₀ e : Engine) (H₀ H : History) : Prop where
  rest : e = { e₀ with writer := e.writer, tiers := e.tiers }
  wal : e.writer.wal = e₀.writer.wal
  bulk : e.writer.groupBulk = false
  applied : ∃ rs, e.writer.group = some rs ∧ Writes H₀ rs H ∧
    applyRedos false e₀.tiers rs = (e.tiers, .ok ())
  stamp : (e.writer.writer.lastCommit = e₀.writer.writer.lastCommit ∧ e.writer.group = some [] ∧
    H = H₀) ∨ e.writer.writer.Past H

/-- A transaction that failed on one of its writes: what is buffered takes the tiers back. -/
structure Engine.Failed (e₀ e : Engine) (H₀ : History) : Prop where
  rest : e = { e₀ with writer := e.writer, tiers := e.tiers }
  wal : e.writer.wal = e₀.writer.wal
  bulk : e.writer.groupBulk = false
  undone : ∃ rs, e.writer.group = some rs ∧ (undo e.tiers rs).Same e₀.tiers
  stamp : e.writer.writer.lastCommit = e₀.writer.writer.lastCommit ∨ e.writer.writer.Past H₀

/-- A clock past the events of a history is past those of an earlier one. -/
theorem SysTimeWriter.Past.mono {w : SysTimeWriter} {H H' : History} (h : w.Past H')
    (hsub : ∀ k, ∀ ev ∈ H k, ev ∈ H' k) : w.Past H := by
  obtain ⟨t, ht, hle⟩ := h
  exact ⟨t, ht, fun k ev hev => hle k ev (hsub k ev hev)⟩

namespace Engine.InGroup

variable {e₀ e : Engine} {H₀ H : History}

theorem stores (h : InGroup e₀ e H₀ H) (h₀ : Stores e₀.tiers e₀.sealedVersions H₀) :
    Stores e.tiers e₀.sealedVersions H := by
  obtain ⟨rs, -, hw, happ⟩ := h.applied
  obtain ⟨t', ht', hs, -⟩ := h₀.applyRedos hw false
  rw [happ] at ht'
  cases ht'
  exact hs

theorem bounds (h : InGroup e₀ e H₀ H) {now : SystemTimeMicros}
    (hclock : e₀.writer.writer.Bounds H₀ now) : e.writer.writer.Bounds H now := by
  rcases h.stamp with ⟨hlast, -, rfl⟩ | hpast
  · rwa [SysTimeWriter.Bounds, hlast]
  · exact hpast.bounds now

/-- The clock, as seen from the start of the transaction. -/
theorem stamp₀ (h : InGroup e₀ e H₀ H) :
    e.writer.writer.lastCommit = e₀.writer.writer.lastCommit ∨ e.writer.writer.Past H₀ := by
  obtain ⟨rs, -, hw, -⟩ := h.applied
  exact h.stamp.imp And.left fun hpast => hpast.mono hw.subset

/-- One write of a transaction. -/
theorem write (h : InGroup e₀ e H₀ H) (h₀ : Stores e₀.tiers e₀.sealedVersions H₀) {w : DmlWrite}
    (hclock : e₀.writer.writer.Bounds H₀ w.now)
    (hseq : ∀ ev ∈ H w.key, ev.instant = w.now → ∀ x ∈ ev.value, ∀ b ∈ w.seq, x.1 < b) :
    (∃ e' c H', e.write w = (e', .ok c) ∧ InGroup e₀ e' H₀ H' ∧ H'.From H [w]) ∨
      ∃ e' err, e.write w = (e', .error err) ∧ Failed e₀ e' H₀ := by
  have hs := h.stores h₀
  have hclock' := h.bounds hclock
  obtain ⟨rs, hg, hw, happ⟩ := h.applied
  have hsv : e.sealedVersions = e₀.sealedVersions := by rw [h.rest]
  have hundo : (undo e.tiers rs).Same e₀.tiers := by
    have := h₀.undo hw
    rwa [happ] at this
  rcases hs.stage_cases e.writer (fun hprev => hclock' hprev w.key) with
    ⟨st, err, hstage, hst⟩ | ⟨a, rs', hstage, hprev, hnow, hstaged, ha⟩
  · right
    refine ⟨_, .resolve err, by simp only [Engine.write, DmlWriter.write, hsv, hstage]; rfl, ?_⟩
    refine ⟨?_, h.wal, h.bulk, ⟨rs, hg, hundo⟩, ?_⟩
    · conv_lhs => rw [h.rest]
    · rcases hst with rfl | ⟨rfl, hprev⟩
      · exact h.stamp₀
      · exact .inr ⟨w.now, rfl, fun k ev hev => hclock' hprev k ev (hw.subset k ev hev)⟩
  · have hle := hclock' hprev
    have hwf := hs.wellFormed.write_staged hle hnow ha hseq
    have hwrite : e.write w = ({ e with
        writer := { e.writer with writer := ⟨some w.now⟩, group := some (rs ++ rs') }
        tiers := (applyRedos false e.tiers rs').1 },
        ((applyRedos false e.tiers rs').2.mapError .apply).map fun _ => w.now) := by
      simp only [Engine.write, DmlWriter.write, hsv, hstage, DmlWriter.logAndApply, hg, h.bulk,
        Bool.false_eq_true, if_false, applyResident]
      rcases applyRedos false e.tiers rs' with ⟨t, er | _⟩ <;> rfl
    rw [hwrite]
    have hu := hstaged.undo hs hwf
    rcases happ' : applyRedos false e.tiers rs' with ⟨t', err | _⟩
    · right
      rw [happ'] at hu
      refine ⟨_, .apply err, rfl, ?_, h.wal, h.bulk, ⟨rs ++ rs', rfl, ?_⟩, ?_⟩
      · conv_lhs => rw [h.rest]
      · rw [undo_append]
        exact (undo_same hu rs).trans hundo
      · exact .inr ⟨w.now, rfl, fun k ev hev => hle k ev (hw.subset k ev hev)⟩
    · left
      have hwr := hstaged.writes (encodable_of_applyRedos happ') hwf
      refine ⟨_, w.now, _, rfl, ⟨?_, h.wal, h.bulk, ⟨rs ++ rs', rfl, hw.trans hwr, ?_⟩, ?_⟩,
        .write ha⟩
      · conv_lhs => rw [h.rest]
      · rw [applyRedos_append, happ]
        exact happ'
      · exact .inr ⟨w.now, rfl, History.le_of_mem_write hle⟩

theorem writeAll (h : InGroup e₀ e H₀ H) (h₀ : Stores e₀.tiers e₀.sealedVersions H₀)
    {ws : List DmlWrite} (hclock : ∀ w ∈ ws, e₀.writer.writer.Bounds H₀ w.now)
    (htakes : H.Takes ws) :
    (∃ e' H', e.writeAll ws = (e', .ok ()) ∧ InGroup e₀ e' H₀ H' ∧ H'.From H ws) ∨
      ∃ e' err, e.writeAll ws = (e', .error err) ∧ Failed e₀ e' H₀ := by
  induction ws generalizing e H with
  | nil => exact .inl ⟨e, H, rfl, h, .refl H _⟩
  | cons w ws ih =>
    rcases h.write h₀ (hclock w List.mem_cons_self) htakes.head with
      ⟨e₁, c, H₁, hw, hin, hfrom⟩ | ⟨e₁, err, hw, hfail⟩
    · rw [Engine.writeAll, hw]
      rcases ih hin (fun w hw => hclock w (List.mem_cons_of_mem _ hw)) (htakes.tail hfrom) with
        ⟨e₂, H₂, hws, hin₂, hfrom₂⟩ | hfail
      · exact .inl ⟨e₂, H₂, hws, hin₂, hfrom.trans hfrom₂⟩
      · exact .inr hfail
    · exact .inr ⟨e₁, err, by rw [Engine.writeAll, hw], hfail⟩

/-- **The commit of a transaction**: it succeeds and stores all its events, or fails and stores all
or none. -/
theorem finishGroup (h : InGroup e₀ e H₀ H) (h₀ : Stores e₀.tiers e₀.sealedVersions H₀)
    (txnId : Option TxnId) :
    ((e.finishGroup txnId).2 = .ok () → e₀.Wrote H₀ (e.finishGroup txnId).1 H) ∧
      ∃ H', (H' = H₀ ∨ H' = H) ∧ e₀.Wrote H₀ (e.finishGroup txnId).1 H' := by
  have hs := h.stores h₀
  obtain ⟨rs, hg, hwr, happ⟩ := h.applied
  simp only [Engine.finishGroup, DmlWriter.finishGroup, hg, Option.getD_some]
  by_cases hnil : rs.isEmpty = true
  · -- the transaction wrote nothing
    obtain rfl := List.isEmpty_iff.1 hnil
    obtain rfl := hwr.of_nil
    have htiers : e.tiers = e₀.tiers := (congrArg Prod.fst happ).symm
    have hwrote : e₀.Wrote H { e with writer := { e.writer with group := none } } H := by
      rw [h.rest]
      exact .refused rfl (by rw [h.wal]; exact .refl _) (by rw [htiers]; exact Tiers.Same.refl _)
        h.stamp₀
    rw [if_pos hnil]
    exact ⟨fun _ => hwrote, H, .inl rfl, hwrote⟩
  rw [if_neg hnil]
  rcases appendGroupRecord_cases e.writer.wal txnId rs with
    ⟨w', err, hlog, hext⟩ | ⟨w', hlog, hext, -⟩
  · -- the record does not reach the log, and its writes are undone
    simp only [hlog]
    refine ⟨fun hok => (by cases hok), H₀, .inl rfl, ?_⟩
    have hundo := h₀.undo hwr
    rw [happ] at hundo
    rw [h.wal] at hext
    rw [h.rest]
    exact .refused rfl hext hundo h.stamp₀
  · -- the record counts, whether or not the fsync succeeds
    obtain ⟨t', ht', -, hst'⟩ := h₀.applyRedos hwr false
    rw [happ] at ht'
    cases ht'
    have hpast : e.writer.writer.Past H := by
      refine h.stamp.resolve_left ?_
      rintro ⟨-, hempty, -⟩
      exact hnil (List.isEmpty_iff.2 (Option.some.inj (hg.symm.trans hempty)))
    rw [h.wal] at hext
    rcases w'.tick_cases with ⟨w'', err, htick, hext'⟩ | ⟨w'', htick, hext', -⟩
    all_goals
      simp only [hlog, htick]
      have hwrote : e₀.Wrote H₀ { e with
          writer := { e.writer with wal := w'', group := none } } H := by
        rw [h.rest]
        exact .logged rfl (hext.trans hext') hwr hs hst' hpast
    · exact ⟨fun hok => (by cases hok), H, .inr rfl, hwrote⟩
    · exact ⟨fun _ => hwrote, H, .inr rfl, hwrote⟩

end Engine.InGroup

theorem Engine.inGroup_beginGroup (e : Engine) (H : History) : InGroup e e.beginGroup H H :=
  ⟨rfl, rfl, rfl, ⟨[], rfl, .nil H, rfl⟩, .inl ⟨rfl, rfl, rfl⟩⟩

/-- A transaction that is taken back after one of its writes was refused. -/
theorem Engine.Failed.abortGroup {e₀ e : Engine} {H₀ : History} (h : Failed e₀ e H₀) :
    e₀.Wrote H₀ e.abortGroup H₀ := by
  obtain ⟨rs, hg, hundo⟩ := h.undone
  simp only [Engine.abortGroup, DmlWriter.abortGroup, h.bulk, hg, Bool.false_eq_true, if_false]
  rw [h.rest]
  exact .refused rfl (by rw [h.wal]; exact .refl _) hundo h.stamp

/-- **A transaction** changes nothing, or logs and stores all its events together. -/
theorem Engine.wrote_groupCommit {e : Engine} {H : History}
    (hs : Stores e.tiers e.sealedVersions H) {ws : List DmlWrite} (txnId : Option TxnId)
    (hclock : ∀ w ∈ ws, e.writer.writer.Bounds H w.now) (htakes : H.Takes ws) :
    ∃ H', e.Wrote H (e.groupCommit ws txnId).1 H' ∧ H'.From H ws := by
  have hin := inGroup_beginGroup e H
  rcases hin.writeAll hs hclock htakes with ⟨e', H', hw, hin', hfrom⟩ | ⟨e', err, hw, hfail⟩
  · obtain ⟨-, H'', hH, hwrote⟩ := hin'.finishGroup hs txnId
    rw [Engine.groupCommit, hw]
    rcases hH with rfl | rfl
    · exact ⟨_, hwrote, .refl _ ws⟩
    · exact ⟨_, hwrote, hfrom⟩
  · rw [Engine.groupCommit, hw]
    exact ⟨H, hfail.abortGroup, .refl H ws⟩

end SteleDb
