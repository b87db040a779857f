import SteleDb.Storage.Writes

/-!
# Runs of a table's write path

`Tier.run` drives the write path of one table through any sequence of insert, update and delete
calls, with the staged versions sealed into segments at any point between them, and keeps the log
of the accepted calls.  The log is the specification: `timeline_of_run` says that every read, every
refusal and every period of the table is what the log says.

The one call the theorem leaves out is an update whose new version is too large to encode while
its close is not: the close is applied before the version is refused, so that the failing call ends
the live version (`write_of_halfApplies`).
-/

namespace SteleDb

open Timeline

/-- The operation of a call. -/
inductive WriteOp where
  /-- Open the first version of the key. -/
  | insert (payload : Option Bytes) (seq : Seq)
  /-- Supersede the live version of the key. -/
  | update (payload : Option Bytes) (seq : Seq)
  /-- Close the live version of the key. -/
  | delete
  deriving DecidableEq, Repr

/-- A call of the write path, with the clock's reading. -/
structure WriteCall where
  /-- The clock's reading. -/
  now : SystemTimeMicros
  /-- The key written. -/
  key : BusinessKey
  /-- The writing transaction. -/
  txnId : TxnId
  /-- The writing principal. -/
  principal : Bytes
  /-- What is written. -/
  op : WriteOp
  deriving DecidableEq, Repr

namespace WriteCall

/-- The sequence number and payload the call asserts; `none` for a delete. -/
def value (c : WriteCall) : Option (Seq × Option Bytes) :=
  match c.op with
  | .insert payload seq => some (seq, payload)
  | .update payload seq => some (seq, payload)
  | .delete => none

/-- The payload the call asserts; `none` for a delete. -/
def asserted (c : WriteCall) : Option (Option Bytes) := c.value.map Prod.snd

/-- The event an accepted call appends to its key's timeline. -/
def event (c : WriteCall) : KeyEvent := keyEvent c.now c.txnId c.principal c.value

/-- The new version of the call, if any, can be encoded. -/
def VersionFits (c : WriteCall) : Prop :=
  ∀ a ∈ c.value, (openVersion c.key c.now a.1 a.2 c.txnId c.principal).Encodable

/-- A close written by the call can be encoded; its size does not depend on the closed version. -/
def CloseFits (c : WriteCall) : Prop :=
  (Close.mk c.key 0 0 c.now ⟨c.txnId, c.now, c.principal⟩).Encodable

/-- An update whose close can be encoded and whose new version cannot. -/
def HalfApplies (c : WriteCall) : Prop :=
  (∃ payload seq, c.op = .update payload seq) ∧ c.CloseFits ∧ ¬ c.VersionFits

/-- The call is refused on a key that is live (`live`) or not: an insert on a live key or with a
version too large, an update or a delete on a key that is not live or with a close too large. -/
def Refused (c : WriteCall) (live : Prop) : Prop :=
  match c.op with
  | .insert _ _ => live ∨ ¬ c.VersionFits
  | .update _ _ => ¬ live ∨ ¬ c.CloseFits
  | .delete => ¬ live ∨ ¬ c.CloseFits

theorem closeBy_encodable {c : WriteCall} (h : c.CloseFits) (p : KeyPeriod) :
    (KeyPeriod.closeBy c.key p c.event).Encodable := h

end WriteCall

/-- A table's write path: its writer, its tiers and its sealed versions. -/
structure Tier where
  /-- The commit stamper. -/
  writer : SysTimeWriter := {}
  /-- Delta tier and validity index. -/
  tiers : Tiers := {}
  /-- The versions of the sealed segments. -/
  sealedVersions : List Version := []

namespace Tier

/-- The version of a key live at a snapshot. -/
def asOf (t : Tier) (key : BusinessKey) (s : SystemTimeMicros) : Option Version :=
  resolveLive t.tiers t.sealedVersions key s

/-- The versions of a key with their resolved periods, in chain order. -/
def chain (t : Tier) (key : BusinessKey) : List Version :=
  (resolvedChain (t.tiers.delta.candidateVersions key) (versionsFor t.sealedVersions key)
    t.tiers.index key).values

/-- One call of the write path. -/
def write (t : Tier) (c : WriteCall) : Tier × Except SysTimeError SystemTimeMicros :=
  let (w, ts, r) := match c.op with
    | .insert payload seq =>
      t.writer.insert c.now t.tiers t.sealedVersions c.key payload seq c.txnId c.principal
    | .update payload seq =>
      t.writer.update c.now t.tiers t.sealedVersions c.key payload seq c.txnId c.principal
    | .delete => t.writer.delete c.now t.tiers t.sealedVersions c.key c.txnId c.principal
  ({ t with writer := w, tiers := ts }, r)

/-- Move the staged versions to the sealed ones. -/
def sealStaged (t : Tier) : Tier :=
  { t with
    sealedVersions := t.sealedVersions ++ t.tiers.delta.stagedVersions
    tiers := { t.tiers with delta := t.tiers.delta.discardFlushed } }

end Tier

/-- A step of a run. -/
inductive Action where
  /-- A call of the write path. -/
  | write (c : WriteCall)
  /-- The staged versions move to a sealed segment. -/
  | sealStaged
  deriving DecidableEq, Repr

/-- The clock reading of a step. -/
def Action.reading : Action → Option SystemTimeMicros
  | .write c => some c.now
  | .sealStaged => none

/-- A table with the log of its accepted calls, newest first. -/
abbrev LoggedTier := Tier × List WriteCall

/-- One step of a run. -/
def LoggedTier.step (s : LoggedTier) : Action → LoggedTier
  | .sealStaged => (s.1.sealStaged, s.2)
  | .write c =>
    match s.1.write c with
    | (t, .ok _) => (t, c :: s.2)
    | (t, .error _) => (t, s.2)

/-- A run from an empty table. -/
def Tier.run (dc : DeltaConfig) (vc : ValidityConfig) (actions : List Action) : LoggedTier :=
  actions.foldl LoggedTier.step
    ({ tiers := { delta := { config := dc }, index := { config := vc } } }, [])

/-- The clock never goes back and stays below the sentinel. -/
structure Timely (actions : List Action) : Prop where
  sorted : (actions.filterMap Action.reading).Pairwise (· ≤ ·)
  below : ∀ n ∈ actions.filterMap Action.reading, n < systemTimeOpen

/-- The accepted calls of a key carry increasing sequence numbers (newest first). -/
def SeqIncreasing (log : List WriteCall) : Prop :=
  log.Pairwise fun newer older => newer.key = older.key →
    ∀ a ∈ newer.value, ∀ b ∈ older.value, b.1 < a.1

/-- The last accepted call of the key asserted a value. -/
def LiveIn (log : List WriteCall) (key : BusinessKey) : Prop :=
  ∃ c, log.find? (fun c => c.key = key) = some c ∧ c.value.isSome = true

/-- The histories a log describes. -/
def historyOf (log : List WriteCall) : History :=
  fun k => (log.filter fun c => c.key = k).map WriteCall.event

theorem historyOf_cons (c : WriteCall) (log : List WriteCall) :
    historyOf (c :: log) = (historyOf log).write c.key c.event := by
  funext k
  by_cases hk : k = c.key
  · subst hk; simp [historyOf, History.write_self]
  · rw [History.write_of_ne hk]
    simp [historyOf, Ne.symm hk]

theorem mem_historyOf {log : List WriteCall} {k : BusinessKey} {e : KeyEvent} :
    e ∈ historyOf log k ↔ ∃ c ∈ log, c.key = k ∧ c.event = e := by
  simp [historyOf, and_assoc]

/-- The state a log describes at `s` is what its last call of the key by `s` asserted. -/
theorem stateAt_historyOf (log : List WriteCall) (k : BusinessKey) (s : SystemTimeMicros) :
    (stateAt (historyOf log k) s).map Prod.snd =
      (log.find? fun c => c.key = k ∧ c.now ≤ s).bind WriteCall.asserted := by
  induction log with
  | nil => rfl
  | cons c log ih =>
    by_cases hk : c.key = k
    · have hcons : historyOf (c :: log) k = c.event :: historyOf log k := by
        rw [historyOf_cons, hk, History.write_self]
      rw [hcons]
      by_cases hs : c.now ≤ s
      · rw [stateAt_cons_of_le (e := c.event) hs]
        simp [hk, hs, WriteCall.asserted, WriteCall.event, keyEvent]
      · rw [stateAt_cons_of_lt (e := c.event) (not_le.1 hs), ih]
        simp [hs]
    · have hcons : historyOf (c :: log) k = historyOf log k := by
        rw [historyOf_cons, History.write_of_ne (Ne.symm hk)]
      rw [hcons, ih]
      simp [hk]

theorem live_historyOf {log : List WriteCall} {k : BusinessKey} :
    (historyOf log).Live k ↔ LiveIn log k := by
  rw [History.Live, History.periodsOf, exists_open_iff, historyOf, LiveIn, List.head?_map,
    List.head?_filter]
  simp only [Option.mem_def, Option.map_eq_some_iff]
  constructor
  · rintro ⟨e, ⟨c, hc, rfl⟩, he⟩
    exact ⟨c, hc, he⟩
  · rintro ⟨c, hc, he⟩
    exact ⟨c.event, ⟨c, hc, rfl⟩, he⟩

/-! ### One call -/

/-- No accepted call was one to refuse. -/
def Legal : List WriteCall → Prop
  | [] => True
  | c :: log => ¬ c.Refused (LiveIn log c.key) ∧ Legal log

/-- The table stores what its log says. -/
structure LoggedTier.Sound (s : LoggedTier) : Prop where
  stores : Stores s.1.tiers s.1.sealedVersions (historyOf s.2)
  legal : Legal s.2
  bounded : ∀ c ∈ s.2, ∃ prev ∈ s.1.writer.lastCommit, c.now ≤ prev

theorem applyRedo_insert_ok {t : Tiers} {v : Version} (hf : t.delta.faults.Clean)
    (hv : v.Encodable) (b : Bool) : ∃ t', applyRedo b t (.insert v) = (t', .ok ()) := by
  have h := Delta.insertInner_snd hf hv b
  simp only [applyRedo]
  rcases hi : t.delta.insertInner v b with ⟨d, r⟩
  rw [hi] at h
  simp only at h
  subst h
  exact ⟨_, rfl⟩

namespace LoggedTier.Sound

variable {s : LoggedTier} {c : WriteCall}

theorem instant_le (h : s.Sound) (hprev : ∀ prev ∈ s.1.writer.lastCommit, prev ≤ c.now)
    {k : BusinessKey} : ∀ e ∈ historyOf s.2 k, e.instant ≤ c.now := by
  intro e he
  obtain ⟨c', hc', -, rfl⟩ := mem_historyOf.1 he
  obtain ⟨prev, hp, hle⟩ := h.bounded c' hc'
  exact hle.trans (hprev prev hp)

section

variable (h : s.Sound) (hprev : ∀ prev ∈ s.1.writer.lastCommit, prev ≤ c.now)
  (hnow : c.now < systemTimeOpen)

include h hprev hnow

/-- A refused call moves the stamp and nothing else. -/
theorem write_refused (hr : c.Refused (LiveIn s.2 c.key)) :
    ∃ e, s.1.write c = ({ s.1 with writer := ⟨some c.now⟩ }, .error e) := by
  have hle := h.instant_le hprev (k := c.key)
  rw [← live_historyOf] at hr
  obtain ⟨now, key, txnId, principal, op⟩ := c
  cases op with
  | insert payload seq =>
    by_cases hl : (historyOf s.2).Live key
    · refine ⟨.keyExists, ?_⟩
      simp only [Tier.write, SysTimeWriter.insert, (h.stores.stageInsert hprev hnow hle).1 hl,
        SysTimeWriter.applyStaged]
    · have hfit : ¬ (openVersion key now seq payload txnId principal).Encodable := by
        simpa [WriteCall.VersionFits, WriteCall.value] using hr.resolve_left hl
      refine ⟨.delta (.tooLarge (openVersion key now seq payload txnId principal).encodedSize), ?_⟩
      simp only [Tier.write, SysTimeWriter.insert, (h.stores.stageInsert hprev hnow hle).2 hl,
        SysTimeWriter.applyStaged, apply, applyRedos, applyRedo,
        Delta.insertInner_of_not_encodable hfit]
  | update payload seq =>
    by_cases hl : (historyOf s.2).Live key
    · obtain ⟨p, hp, hst⟩ := hl
      have hfit : ¬ (KeyPeriod.closeBy key p
          (keyEvent now txnId principal (some (seq, payload)))).Encodable :=
        hr.resolve_left (not_not.2 ⟨p, hp, hst⟩)
      refine ⟨.validity (.tooLarge (KeyPeriod.closeBy key p
        (keyEvent now txnId principal (some (seq, payload)))).encodedSize), ?_⟩
      simp only [Tier.write, SysTimeWriter.update,
        (h.stores.stageUpdate hprev hnow hle).2 p hp hst, SysTimeWriter.applyStaged, apply,
        applyRedos, applyRedo, ValidityIndex.insertCloseInner_of_not_encodable hfit]
    · refine ⟨.keyNotFound, ?_⟩
      simp only [Tier.write, SysTimeWriter.update, (h.stores.stageUpdate hprev hnow hle).1 hl,
        SysTimeWriter.applyStaged]
  | delete =>
    by_cases hl : (historyOf s.2).Live key
    · obtain ⟨p, hp, hst⟩ := hl
      have hfit : ¬ (KeyPeriod.closeBy key p (keyEvent now txnId principal none)).Encodable :=
        hr.resolve_left (not_not.2 ⟨p, hp, hst⟩)
      refine ⟨.validity (.tooLarge (KeyPeriod.closeBy key p
        (keyEvent now txnId principal none)).encodedSize), ?_⟩
      simp only [Tier.write, SysTimeWriter.delete,
        (h.stores.stageDelete hprev hnow hle).2 p hp hst, SysTimeWriter.applyStaged, apply,
        applyRedos, applyRedo, ValidityIndex.insertCloseInner_of_not_encodable hfit]
    · refine ⟨.keyNotFound, ?_⟩
      simp only [Tier.write, SysTimeWriter.delete, (h.stores.stageDelete hprev hnow hle).1 hl,
        SysTimeWriter.applyStaged]

/-- Every other call is accepted; when its position is new, the table then stores the log with the
call. -/
theorem write_accepted (hr : ¬ c.Refused (LiveIn s.2 c.key)) (hhalf : ¬ c.HalfApplies) :
    ∃ ts, s.1.write c = ({ s.1 with writer := ⟨some c.now⟩, tiers := ts }, .ok c.now) ∧
      ((historyOf (c :: s.2)).WellFormed →
        Stores ts s.1.sealedVersions (historyOf (c :: s.2))) := by
  have hle := h.instant_le hprev (k := c.key)
  rw [← live_historyOf] at hr
  rw [historyOf_cons]
  obtain ⟨now, key, txnId, principal, op⟩ := c
  cases op with
  | insert payload seq =>
    obtain ⟨hl, hfit⟩ := not_or.1 hr
    have henc : (openVersion key now seq payload txnId principal).Encodable :=
      not_not.1 hfit (seq, payload) rfl
    obtain ⟨ts, hts⟩ := applyRedo_insert_ok h.stores.deltaClean henc true
    refine ⟨ts, ?_, fun hwf => ?_⟩
    · simp only [Tier.write, SysTimeWriter.insert, (h.stores.stageInsert hprev hnow hle).2 hl,
        SysTimeWriter.applyStaged, apply, applyRedos, hts]
    · obtain ⟨ts', hts', hst, -⟩ := h.stores.insert_step (History.not_live_iff.1 hl)
        (a := (seq, payload)) rfl hwf henc true
      cases hts.symm.trans hts'
      exact hst
  | update payload seq =>
    obtain ⟨hl, hfit⟩ := not_or.1 hr
    obtain ⟨p, hp, hst⟩ := not_not.1 hl
    have hcl : (KeyPeriod.closeBy key p
        (keyEvent now txnId principal (some (seq, payload)))).Encodable :=
      WriteCall.closeBy_encodable (not_not.1 hfit) p
    have henc : (openVersion key now seq payload txnId principal).Encodable :=
      not_not.1 (fun hn => hhalf ⟨⟨payload, seq, rfl⟩, not_not.1 hfit, hn⟩) (seq, payload) rfl
    obtain ⟨t₁, ht₁, hd, -⟩ := applyRedo_close h.stores.writeOnce h.stores.indexClean hcl
      (h.stores.closeOf_live hp hst) true
    obtain ⟨ts, hts⟩ := applyRedo_insert_ok (t := t₁) (hd ▸ h.stores.deltaClean) henc true
    have happ : applyRedos true s.1.tiers
        [.close (KeyPeriod.closeBy key p (keyEvent now txnId principal (some (seq, payload)))),
          .insert (openVersion key now seq payload txnId principal)] = (ts, .ok ()) := by
      simp only [applyRedos, ht₁, hts]
    refine ⟨ts, ?_, fun hwf => ?_⟩
    · simp only [Tier.write, SysTimeWriter.update,
        (h.stores.stageUpdate hprev hnow hle).2 p hp hst, SysTimeWriter.applyStaged, apply, happ]
    · obtain ⟨ts', hts', hst', -⟩ := h.stores.update_step hp hst (a := (seq, payload)) rfl hwf hcl
        henc true
      cases happ.symm.trans hts'
      exact hst'
  | delete =>
    obtain ⟨hl, hfit⟩ := not_or.1 hr
    obtain ⟨p, hp, hst⟩ := not_not.1 hl
    have hcl := WriteCall.closeBy_encodable (not_not.1 hfit) p
    obtain ⟨ts, hts, -⟩ := applyRedo_retract h.stores.writeOnce h.stores.indexClean hcl
      (h.stores.closeOf_live hp hst) true
    refine ⟨ts, ?_, fun hwf => ?_⟩
    · have happ : applyRedo true s.1.tiers (.retract (KeyPeriod.closeBy key p
          (keyEvent now txnId principal none))) = (ts, .ok ()) := hts
      simp only [Tier.write, SysTimeWriter.delete,
        (h.stores.stageDelete hprev hnow hle).2 p hp hst, SysTimeWriter.applyStaged, apply,
        applyRedos, happ]
    · obtain ⟨ts', hts', hst', -⟩ := h.stores.delete_step hp hst rfl hwf hcl true
      cases hts.symm.trans hts'
      exact hst'

/-- **An update whose new version is too large ends the live version.**  Its close is applied before
the version is refused, so that the failing call acts as a delete. -/
theorem write_of_halfApplies (hl : LiveIn s.2 c.key) (hhalf : c.HalfApplies) :
    ∃ ts e, s.1.write c = ({ s.1 with writer := ⟨some c.now⟩, tiers := ts }, .error e) ∧
      Stores ts s.1.sealedVersions
        ((historyOf s.2).write c.key { c.event with value := none }) := by
  have hle := h.instant_le hprev (k := c.key)
  obtain ⟨p, hp, hst⟩ := live_historyOf.2 hl
  obtain ⟨⟨payload, seq, hop⟩, hcl, hfit⟩ := hhalf
  have hbig : ¬ (openVersion c.key c.now seq payload c.txnId c.principal).Encodable := by
    simpa [WriteCall.VersionFits, WriteCall.value, hop] using hfit
  have hwf : ((historyOf s.2).write c.key { c.event with value := none }).WellFormed :=
    h.stores.wellFormed.write hle hnow fun a ha => nomatch ha
  obtain ⟨ts, hts, hst'⟩ := h.stores.close_step hp hst hwf (WriteCall.closeBy_encodable hcl p) true
  have happ : applyRedo true s.1.tiers (.close (KeyPeriod.closeBy c.key p
      (keyEvent c.now c.txnId c.principal (some (seq, payload))))) = (ts, .ok ()) := hts
  refine ⟨ts, .delta (.tooLarge
    (openVersion c.key c.now seq payload c.txnId c.principal).encodedSize), ?_, hst'⟩
  simp only [Tier.write, hop, SysTimeWriter.update,
    (h.stores.stageUpdate hprev hnow hle).2 p hp hst, SysTimeWriter.applyStaged, apply, applyRedos,
    happ]
  simp only [applyRedo, Delta.insertInner_of_not_encodable hbig]

theorem wellFormed_cons (hseq : SeqIncreasing (c :: s.2)) :
    (historyOf (c :: s.2)).WellFormed := by
  rw [historyOf_cons]
  refine h.stores.wellFormed.write (h.instant_le hprev) hnow ?_
  intro a ha e' he' b hb
  have hle := h.instant_le hprev e' he'
  obtain ⟨c', hc', hk, rfl⟩ := mem_historyOf.1 he'
  have hlt := List.rel_of_pairwise_cons hseq hc' hk.symm a ha b hb
  rw [Prod.Lex.toLex_lt_toLex]
  rcases hle.lt_or_eq with hlt' | heq
  · exact .inl hlt'
  · exact .inr ⟨heq, hlt⟩

end

end LoggedTier.Sound

/-! ### Runs -/

namespace LoggedTier

variable {s : LoggedTier} {a : Action}

/-- **One step keeps the table sound**, and the writer's stamp a reading of the clock. -/
theorem Sound.step (h : s.Sound)
    (hnow : ∀ n ∈ a.reading, (∀ prev ∈ s.1.writer.lastCommit, prev ≤ n) ∧ n < systemTimeOpen)
    (hhalf : ∀ c, a = .write c → ¬ c.HalfApplies) (hseq : SeqIncreasing (s.step a).2) :
    (s.step a).Sound ∧
      ∀ prev ∈ (s.step a).1.writer.lastCommit, prev ∈ a.reading ∨ prev ∈ s.1.writer.lastCommit := by
  cases a with
  | sealStaged =>
    refine ⟨⟨?_, h.legal, h.bounded⟩, fun prev hp => .inr hp⟩
    exact h.stores.sealStaged fun v => List.mem_append
  | write c =>
    obtain ⟨hprev, hlt⟩ := hnow c.now rfl
    by_cases hr : c.Refused (LiveIn s.2 c.key)
    · obtain ⟨e, he⟩ := h.write_refused hprev hlt hr
      simp only [LoggedTier.step, he] at hseq ⊢
      refine ⟨⟨h.stores, h.legal, fun c' hc' => ?_⟩, fun prev hp => .inl hp⟩
      obtain ⟨prev, hp, hle⟩ := h.bounded c' hc'
      exact ⟨c.now, rfl, hle.trans (hprev prev hp)⟩
    · obtain ⟨ts, hts, hst⟩ := h.write_accepted hprev hlt hr (hhalf c rfl)
      simp only [LoggedTier.step, hts] at hseq ⊢
      refine ⟨⟨hst (h.wellFormed_cons hprev hlt hseq), ⟨hr, h.legal⟩, fun c' hc' => ?_⟩,
        fun prev hp => .inl hp⟩
      rcases List.mem_cons.1 hc' with rfl | hc'
      · exact ⟨c'.now, rfl, le_rfl⟩
      · obtain ⟨prev, hp, hle⟩ := h.bounded c' hc'
        exact ⟨c.now, rfl, hle.trans (hprev prev hp)⟩

/-- The log only grows. -/
theorem suffix_step (s : LoggedTier) (a : Action) : s.2 <:+ (s.step a).2 := by
  cases a with
  | sealStaged => exact List.suffix_rfl
  | write c =>
    simp only [LoggedTier.step]
    rcases s.1.write c with ⟨t, _ | _⟩
    · exact List.suffix_rfl
    · exact List.suffix_cons _ _

end LoggedTier

theorem Timely.of_append {actions : List Action} {a : Action} (h : Timely (actions ++ [a])) :
    Timely actions := by
  obtain ⟨hs, hb⟩ := h
  rw [List.filterMap_append] at hs hb
  exact ⟨(List.pairwise_append.1 hs).1, fun n hn => hb n (List.mem_append_left _ hn)⟩

theorem Timely.reading {actions : List Action} {a : Action} (h : Timely (actions ++ [a])) :
    ∀ n ∈ a.reading, (∀ prev ∈ actions.filterMap Action.reading, prev ≤ n) ∧
      n < systemTimeOpen := by
  intro n hn
  obtain ⟨hs, hb⟩ := h
  rw [List.filterMap_append] at hs hb
  have hmem : n ∈ [a].filterMap Action.reading := List.mem_filterMap.2 ⟨a, by simp, hn⟩
  exact ⟨fun prev hp => (List.pairwise_append.1 hs).2.2 prev hp n hmem,
    hb n (List.mem_append_right _ hmem)⟩

theorem Tier.run_append (dc : DeltaConfig) (vc : ValidityConfig) (actions : List Action)
    (a : Action) : Tier.run dc vc (actions ++ [a]) = (Tier.run dc vc actions).step a := by
  simp only [Tier.run, List.foldl_append, List.foldl_cons, List.foldl_nil]

/-- **Every run keeps the table sound.** -/
theorem Tier.sound_run (dc : DeltaConfig) (vc : ValidityConfig) {actions : List Action}
    (htime : Timely actions) (hseq : SeqIncreasing (Tier.run dc vc actions).2)
    (hhalf : ∀ c, .write c ∈ actions → ¬ c.HalfApplies) :
    (Tier.run dc vc actions).Sound ∧
      ∀ prev ∈ (Tier.run dc vc actions).1.writer.lastCommit,
        prev ∈ actions.filterMap Action.reading := by
  induction actions using List.reverseRecOn with
  | nil =>
    refine ⟨⟨Stores.empty dc vc, trivial, fun c hc => nomatch hc⟩, fun prev hp => nomatch hp⟩
  | append_singleton actions a ih =>
    rw [Tier.run_append] at hseq ⊢
    obtain ⟨hs, hlast⟩ := ih htime.of_append
      (hseq.sublist ((Tier.run dc vc actions).suffix_step a).sublist)
      fun c hc => hhalf c (List.mem_append_left _ hc)
    have hnow : ∀ n ∈ a.reading,
        (∀ prev ∈ (Tier.run dc vc actions).1.writer.lastCommit, prev ≤ n) ∧
          n < systemTimeOpen := fun n hn =>
      ⟨fun prev hp => (htime.reading n hn).1 prev (hlast prev hp), (htime.reading n hn).2⟩
    obtain ⟨hs', hlast'⟩ := hs.step hnow
      (fun c hc => hhalf c (List.mem_append_right _ (by simp [hc]))) hseq
    refine ⟨hs', fun prev hp => ?_⟩
    rw [List.filterMap_append, List.mem_append]
    rcases hlast' prev hp with h | h
    · exact .inr (List.mem_filterMap.2 ⟨a, by simp, h⟩)
    · exact .inl (hlast prev h)

/-! ### The timeline of a key -/

theorem Stores.chain_eq {t : Tier} {H : History} (h : Stores t.tiers t.sealedVersions H)
    (k : BusinessKey) : t.chain k = ((H.periodsOf k).map (KeyPeriod.resolved k)).reverse := by
  refine KeyedMap.values_eq ?_ fun v => ?_
  · rw [List.pairwise_reverse, List.pairwise_map]
    refine (History.periods_increasing (h.wellFormed.increasing k) none).imp fun {p q} hpq => ?_
    simpa [KeyPeriod.resolved] using hpq
  · rw [mem_resolvedChain (h.consistentLists k) h.writeOnce, List.mem_reverse, List.mem_map]
    constructor
    · rintro ⟨raw, hraw, rfl, rfl⟩
      have hP : t.tiers.delta.Holds raw ∨ raw ∈ t.sealedVersions :=
        hraw.imp (fun hr => (Delta.mem_candidateVersions.1 hr).1) fun hr =>
          (List.mem_filter.1 hr).1
      obtain ⟨k, p, hp, rfl⟩ := (h.represents.holds raw).1 hP
      exact ⟨p, hp, (h.represents.stamp_eq hp).symm⟩
    · rintro ⟨p, hp, rfl⟩
      refine ⟨KeyPeriod.version k p, ?_, rfl, h.represents.stamp_eq hp⟩
      exact ((h.represents.holds _).2 ⟨k, p, hp, rfl⟩).imp
        (fun hr => Delta.mem_candidateVersions.2 ⟨hr, rfl⟩) fun hr =>
          List.mem_filter.2 ⟨hr, by simp⟩

/-- An event that asserts nothing is an accepted delete. -/
theorem exists_delete {log : List WriteCall} {k : BusinessKey} {u : KeyEvent}
    (hu : u ∈ historyOf log k) (hv : u.value = none) :
    ∃ d ∈ log, d.key = k ∧ d.op = .delete ∧ d.now = u.instant := by
  obtain ⟨d, hd, hk, rfl⟩ := mem_historyOf.1 hu
  refine ⟨d, hd, hk, ?_, rfl⟩
  change d.value = none at hv
  unfold WriteCall.value at hv
  split at hv
  · cases hv
  · cases hv
  · assumption

/-- Before an accepted update its key was live. -/
theorem Legal.live_of_update {newer older : List WriteCall} {u : WriteCall}
    {payload : Option Bytes} {seq : Seq} (h : Legal (newer ++ u :: older))
    (hop : u.op = .update payload seq) : LiveIn older u.key := by
  induction newer with
  | nil =>
    have hr := h.1
    rw [WriteCall.Refused, hop] at hr
    exact not_not.1 (not_or.1 hr).1
  | cons c newer ih => exact ih h.2

namespace LoggedTier.Sound

variable {s : LoggedTier}

theorem asOf_payload (h : s.Sound) (k : BusinessKey) {at_ : SystemTimeMicros}
    (hs : at_ < systemTimeOpen) : (s.1.asOf k at_).map Version.payload =
      (s.2.find? fun c => c.key = k ∧ c.now ≤ at_).bind WriteCall.asserted := by
  rw [← stateAt_historyOf]
  apply Option.ext
  intro b
  rw [← h.stores.represents.resolves_payload h.stores.wellFormed hs, Option.map_eq_some_iff]
  simp only [Tier.asOf, h.stores.resolveLive_eq_some]

/-- The periods of a key do not overlap. -/
theorem chain_disjoint (h : s.Sound) (k : BusinessKey) :
    (s.1.chain k).Pairwise fun v w => v.sysTo ≤ w.sysFrom := by
  rw [h.stores.chain_eq, List.pairwise_reverse, List.pairwise_map]
  refine (periods_disjoint (h.stores.wellFormed.ordered k) none).imp fun {p q} ⟨u, hu, hle⟩ => ?_
  rwa [KeyPeriod.resolved_sysTo hu, KeyPeriod.resolved_sysFrom]

/-- Two periods in a row abut unless the older was ended by a delete. -/
theorem chain_abut (h : s.Sound) (k : BusinessKey) :
    (s.1.chain k).IsChain fun v w => v.sysTo = w.sysFrom ∨
      ∃ d ∈ s.2, d.key = k ∧ d.op = .delete ∧ d.now = v.sysTo := by
  rw [h.stores.chain_eq, List.isChain_reverse, List.isChain_map]
  refine (periods_abut (historyOf s.2 k) none).imp fun q p ⟨u, hu, huh, hc⟩ => ?_
  rw [KeyPeriod.resolved_sysTo hu, KeyPeriod.resolved_sysFrom]
  rcases hc with rfl | hv
  · exact .inl rfl
  · exact .inr (exists_delete huh hv)

/-- The last period has no end unless a delete ended it. -/
theorem chain_last (h : s.Sound) {k : BusinessKey} {v : Version}
    (hv : v ∈ (s.1.chain k).getLast?) (hopen : v.sysTo ≠ systemTimeOpen) :
    ∃ d ∈ s.2, d.key = k ∧ d.op = .delete ∧ d.now = v.sysTo := by
  rw [h.stores.chain_eq, List.getLast?_reverse, List.head?_map] at hv
  obtain ⟨p, hp, rfl⟩ := Option.map_eq_some_iff.1 hv
  rcases stop_of_head_periods hp with hst | ⟨e, he, hn, hst⟩
  · refine absurd ?_ hopen
    rw [KeyPeriod.resolved, KeyPeriod.ending, hst]
    rfl
  · rw [KeyPeriod.resolved_sysTo hst]
    exact exists_delete he hn

/-- An accepted update's version follows the one it closed, and starts where that one ends. -/
theorem chain_update (h : s.Sound) {u : WriteCall} (hu : u ∈ s.2) {payload : Option Bytes}
    {seq : Seq} (hop : u.op = .update payload seq) :
    ∃ v w, [v, w] <:+: s.1.chain u.key ∧ v.sysTo = u.now ∧ w.sysFrom = u.now ∧ w.seq = seq ∧
      w.payload = payload := by
  obtain ⟨newer, older, hlog⟩ := List.append_of_mem hu
  have hlegal := h.legal
  rw [hlog] at hlegal
  obtain ⟨c, hc, hval⟩ := hlegal.live_of_update hop
  obtain ⟨b, hb⟩ := Option.isSome_iff_exists.1 hval
  obtain ⟨-, mid, rest, hold, hmid⟩ := List.find?_eq_some_iff_append.1 hc
  -- the key's history has the update's event right after the one that asserted the live version
  have hev : historyOf s.2 u.key = historyOf newer u.key ++ u.event :: c.event ::
      historyOf rest u.key := by
    have hkey : c.key = u.key := by simpa using List.find?_some hc
    have hnone : mid.filter (fun c => decide (c.key = u.key)) = [] := by
      rw [List.filter_eq_nil_iff]
      intro c' hc'
      simpa using hmid c' hc'
    simp [historyOf, hlog, hold, hkey, hnone]
  have ha : u.event.value = some (seq, payload) := by
    simp [WriteCall.event, keyEvent, WriteCall.value, hop]
  obtain ⟨x, hx⟩ := infix_periods ha (show c.event.value = some b from hb)
    (historyOf newer u.key) (historyOf rest u.key) none
  rw [← hev] at hx
  have hinfix := List.reverse_infix.2 (hx.map (KeyPeriod.resolved u.key))
  rw [← History.periodsOf, ← h.stores.chain_eq] at hinfix
  refine ⟨_, _, hinfix, KeyPeriod.resolved_sysTo (u := u.event) rfl,
    KeyPeriod.resolved_sysFrom _ _, ?_, ?_⟩ <;>
    simp [KeyPeriod.resolved, KeyPeriod.version, Version.mkOpen]

end LoggedTier.Sound

/-- **The system-time timeline of a run.**  In every run in which the clock never goes back and
stays below the sentinel, the accepted calls of a key carry increasing sequence numbers and no
update has a version too large for its frame: a read returns what the last accepted call of the key
by the snapshot asserted; the next call fails exactly when the log says so, and then changes no
read; the periods of a key are disjoint, an update's begins where the closed one ends, and a period
ends without a successor, or before it, only by a delete. -/
theorem timeline_of_run (dc : DeltaConfig) (vc : ValidityConfig) (actions : List Action)
    (htime : Timely actions) (hseq : SeqIncreasing (Tier.run dc vc actions).2)
    (hhalf : ∀ c, .write c ∈ actions → ¬ c.HalfApplies) :
    let t := (Tier.run dc vc actions).1
    let log := (Tier.run dc vc actions).2
    (∀ k s, s < systemTimeOpen → (t.asOf k s).map Version.payload =
      (log.find? fun c => c.key = k ∧ c.now ≤ s).bind WriteCall.asserted) ∧
    (∀ c, Timely (actions ++ [.write c]) → ¬ c.HalfApplies →
      ((∃ e, (t.write c).2 = .error e) ↔ c.Refused (LiveIn log c.key)) ∧
      ∀ e, (t.write c).2 = .error e → ∀ k s, (t.write c).1.asOf k s = t.asOf k s) ∧
    (∀ k, (t.chain k).Pairwise fun v w => v.sysTo ≤ w.sysFrom) ∧
    (∀ u ∈ log, ∀ payload seq, u.op = .update payload seq →
      ∃ v w, [v, w] <:+: t.chain u.key ∧ v.sysTo = u.now ∧ w.sysFrom = u.now ∧ w.seq = seq ∧
        w.payload = payload) ∧
    (∀ k, (t.chain k).IsChain fun v w => v.sysTo = w.sysFrom ∨
      ∃ d ∈ log, d.key = k ∧ d.op = .delete ∧ d.now = v.sysTo) ∧
    ∀ k, ∀ v ∈ (t.chain k).getLast?, v.sysTo ≠ systemTimeOpen →
      ∃ d ∈ log, d.key = k ∧ d.op = .delete ∧ d.now = v.sysTo := by
  intro t log
  obtain ⟨h, hlast⟩ := Tier.sound_run dc vc htime hseq hhalf
  refine ⟨fun k s hs => h.asOf_payload k hs, fun c hc hh => ?_, h.chain_disjoint,
    fun u hu payload seq hop => h.chain_update hu hop, h.chain_abut,
    fun k v hv hopen => h.chain_last hv hopen⟩
  obtain ⟨hprev, hnow⟩ := hc.reading c.now rfl
  have hprev' : ∀ prev ∈ t.writer.lastCommit, prev ≤ c.now := fun prev hp =>
    hprev prev (hlast prev hp)
  by_cases hr : c.Refused (LiveIn log c.key)
  · obtain ⟨e, he⟩ := h.write_refused hprev' hnow hr
    refine ⟨iff_of_true ⟨e, by rw [he]⟩ hr, fun _ _ k s => ?_⟩
    rw [he]
    rfl
  · obtain ⟨ts, hts, -⟩ := h.write_accepted hprev' hnow hr hh
    refine ⟨iff_of_false (fun ⟨e, he⟩ => ?_) hr, fun e he => ?_⟩ <;>
    · rw [hts] at he
      cases he

/-- Two writes at one instant, a seal, a delete and a second insert of the key `[1]`. -/
def sampleRun : List Action :=
  [.write ⟨10, [1], 1, [], .insert (some [7]) 0⟩, .write ⟨10, [1], 2, [], .update (some [8]) 1⟩,
    .sealStaged, .write ⟨20, [1], 3, [], .delete⟩, .write ⟨30, [1], 4, [], .insert none 2⟩]

theorem timeline_of_sampleRun :
    Timely sampleRun ∧ SeqIncreasing (Tier.run {} {} sampleRun).2 ∧
      ((Tier.run {} {} sampleRun).1.asOf [1] 15).map Version.payload = some (some [8]) := by
  have htime : Timely sampleRun := ⟨by decide, by decide⟩
  have hseq : SeqIncreasing (Tier.run {} {} sampleRun).2 := by
    have hlog : (Tier.run {} {} sampleRun).2 =
        [⟨30, [1], 4, [], .insert none 2⟩, ⟨20, [1], 3, [], .delete⟩,
          ⟨10, [1], 2, [], .update (some [8]) 1⟩, ⟨10, [1], 1, [], .insert (some [7]) 0⟩] := by
      decide
    rw [hlog]
    simp [SeqIncreasing, WriteCall.value]
  have hhalf : ∀ c, .write c ∈ sampleRun → ¬ c.HalfApplies := by
    rintro c hc ⟨-, -, hfit⟩
    simp only [sampleRun, List.mem_cons, Action.write.injEq, reduceCtorEq, List.not_mem_nil,
      or_false, false_or] at hc
    rcases hc with rfl | rfl | rfl | rfl <;> exact hfit fun a ha => by cases ha <;> decide
  refine ⟨htime, hseq, ?_⟩
  refine ((timeline_of_run {} {} sampleRun htime hseq hhalf).1 [1] 15 (by decide)).trans ?_
  decide

/-- A first insert of the key `[1]`. -/
def smallInsert : WriteCall := ⟨10, [1], 1, [], .insert (some [7]) 0⟩

/-- A payload of 16 MiB. -/
def largePayload : Bytes := List.replicate Version.maxVersionFrameLen 0

/-- An update of the key `[1]` with a payload of 16 MiB. -/
def largeUpdate : WriteCall := ⟨20, [1], 2, [], .update (some largePayload) 1⟩

/-- An insert of the key `[2]` with a payload of 16 MiB. -/
def largeInsert : WriteCall := ⟨20, [2], 2, [], .insert (some largePayload) 1⟩

theorem length_largePayload : largePayload.length = Version.maxVersionFrameLen :=
  List.length_replicate

theorem largeInsert_not_fits : ¬ largeInsert.VersionFits := fun h =>
  Version.not_encodable_of_payload rfl length_largePayload.ge (h _ rfl)

theorem largeUpdate_halfApplies : largeUpdate.HalfApplies :=
  ⟨⟨_, _, rfl⟩, ⟨by decide, by decide, by decide⟩, fun h =>
    Version.not_encodable_of_payload rfl length_largePayload.ge (h _ rfl)⟩

theorem sound_smallInsert : (Tier.run {} {} [.write smallInsert]).Sound := by
  refine (Tier.sound_run {} {} ⟨by decide, by decide⟩ ?_ ?_).1
  · have hlog : (Tier.run {} {} [.write smallInsert]).2 = [smallInsert] := by decide
    rw [hlog]
    exact List.pairwise_singleton ..
  · rintro c hc ⟨⟨payload, seq, hop⟩, -⟩
    have hc' : c = smallInsert := by simpa using hc
    rw [hc'] at hop
    cases hop

/-- With a payload of 16 MiB an insert fails on a key that is not live, and an update fails on a
live one and ends it. -/
theorem large_payload_breaks_timeline :
    let s := Tier.run {} {} [.write smallInsert]
    (∃ e, (s.1.write largeInsert).2 = .error e) ∧ ¬ LiveIn s.2 largeInsert.key ∧
    (∃ e, (s.1.write largeUpdate).2 = .error e) ∧ LiveIn s.2 largeUpdate.key ∧
    (s.1.asOf [1] 20).isSome = true ∧ (s.1.write largeUpdate).1.asOf [1] 20 = none := by
  intro s
  have hs : s.Sound := sound_smallInsert
  have hlog : s.2 = [smallInsert] := by decide
  have hlast : s.1.writer.lastCommit = some 10 := by decide
  have hprev : ∀ prev ∈ s.1.writer.lastCommit, prev ≤ (20 : ℤ) := by
    rw [hlast]; decide
  have hlive : LiveIn s.2 largeUpdate.key := ⟨smallInsert, by rw [hlog]; rfl, rfl⟩
  obtain ⟨e, he⟩ := hs.write_refused (c := largeInsert) hprev (by decide)
    (.inr largeInsert_not_fits)
  obtain ⟨ts, e', he', hst⟩ := hs.write_of_halfApplies hprev (by decide) hlive
    largeUpdate_halfApplies
  refine ⟨⟨e, by rw [he]⟩, ?_, ⟨e', by rw [he']⟩, hlive, by decide, ?_⟩
  · rintro ⟨c, hc, -⟩
    rw [hlog] at hc
    cases hc
  · rw [he']
    refine (hst.resolveLive_eq_none (by decide) ?_).2 ?_
    · intro ev hev
      change ev ∈ History.write _ largeUpdate.key _ largeUpdate.key at hev
      rw [History.write_self] at hev
      rcases List.mem_cons.1 hev with rfl | hev
      · exact le_rfl
      · exact hs.instant_le (c := largeUpdate) hprev ev hev
    · intro p hp hn
      have hx := exists_open_iff.1 ⟨p, hp, hn⟩
      change ∃ e ∈ (History.write _ largeUpdate.key _ largeUpdate.key).head?, _ at hx
      rw [History.write_self] at hx
      obtain ⟨ev, ⟨⟩, hev⟩ := hx
      cases hev

end SteleDb
