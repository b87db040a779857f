import SteleDb.Storage.CrashPoints

/-!
# Runs of the engine with failures and crashes

A run of a table: single writes, transactions, checkpoints, flushes and compactions on a disk any
operation of which may fail, crashes at any point of them, and restarts.

* `Host.Run.sane` : the invariant holds over every run whose calls do no harm to what recovery may
  look for;
* `recover_of_cut` : then a crash between two steps of a flush or a compaction changes no answer.
  A manifest record that a crash has torn hides all that follow it, and a compaction after it
  removes segments that recovery looks for (`torn_record_loses_segment`);
* `recover_of_failures` : then no failure of a step does harm later.  A record that was written
  although its fsync failed names a segment that the next attempt removes
  (`failed_fsync_loses_segment`).
-/

namespace SteleDb

open Timeline Engine

/-! ### What the callers promise -/

/-- The instant of a redo entry. -/
def Redo.instant : Redo → SystemTimeMicros
  | .insert v => v.sysFrom
  | .close c => c.sysTo
  | .retract c => c.sysTo

/-- The redo entry of an event: the version it asserts, or the end of the one it retracts. -/
def Redo.Records (r : Redo) (k : BusinessKey) (ev : KeyEvent) : Prop :=
  r.instant = ev.instant ∧
    ∀ x ∈ ev.value, r = .insert (Version.mkOpen k ev.instant x.1 ev.author x.2)

/-- Every event that writes add has a redo entry. -/
theorem Writes.exists_records {H H' : History} {rs : List Redo} (h : Writes H rs H')
    {k : BusinessKey} {ev : KeyEvent} (hev : ev ∈ H' k) : ev ∈ H k ∨ ∃ r ∈ rs, r.Records k ev := by
  -- the event of one write, and what the writes after it add
  have hcons : ∀ {H : History} {k' : BusinessKey} {e : KeyEvent} {r : Redo} {rs rs' : List Redo},
      (ev ∈ H.write k' e k ∨ ∃ r ∈ rs, r.Records k ev) → r.Records k' e → r ∈ rs' →
      (∀ r ∈ rs, r ∈ rs') → ev ∈ H k ∨ ∃ r ∈ rs', r.Records k ev := by
    intro H k' e r rs rs' hev hrec hr hsub
    rcases hev with hev | ⟨r', hr', hrec'⟩
    · by_cases hk : k = k'
      · subst hk
        rw [History.write_self] at hev
        rcases List.mem_cons.1 hev with rfl | hev
        · exact .inr ⟨r, hr, hrec⟩
        · exact .inl hev
      · rw [History.write_of_ne hk] at hev
        exact .inl hev
    · exact .inr ⟨r', hsub r' hr', hrec'⟩
  induction h with
  | nil H => exact .inl hev
  | insert hdead ha hwf henc _ ih =>
    refine hcons (ih hev) ⟨rfl, fun x hx => ?_⟩ List.mem_cons_self fun r hr =>
      List.mem_cons_of_mem _ hr
    cases ha.symm.trans hx
    rfl
  | update hp hlive ha hwf hcl henc _ ih =>
    refine hcons (ih hev) ⟨rfl, fun x hx => ?_⟩ (List.mem_cons_of_mem _ List.mem_cons_self)
      fun r hr => List.mem_cons_of_mem _ (List.mem_cons_of_mem _ hr)
    cases ha.symm.trans hx
    rfl
  | delete hp hlive ha hwf hcl _ ih =>
    refine hcons (ih hev) ⟨rfl, fun x hx => ?_⟩ List.mem_cons_self fun r hr =>
      List.mem_cons_of_mem _ hr
    cases ha.symm.trans hx

/-- The histories of a log of `n` records, and one more. -/
def extendAt (Hs : ℕ → History) (n : ℕ) (H : History) : ℕ → History :=
  fun m => if m ≤ n then Hs m else H

theorem Chained.concat {Hs : ℕ → History} {rs : List WalRecord} {r : WalRecord} {H : History}
    (hc : Chained rs Hs) (hw : Writes (Hs rs.length) r.redos H) :
    Chained (rs ++ [r]) (extendAt Hs rs.length H) where
  start := (if_pos (Nat.zero_le _)).trans hc.start
  step := by
    intro n r' hr'
    -- a record of the old log, the new one, or none
    rcases Nat.lt_trichotomy n rs.length with hlt | rfl | hgt
    · rw [List.getElem?_append_left hlt] at hr'
      rw [extendAt, if_pos hlt.le, extendAt, if_pos (Nat.succ_le_of_lt hlt)]
      exact hc.step n r' hr'
    · rw [List.getElem?_concat_length] at hr'
      cases hr'
      rw [extendAt, if_pos le_rfl, extendAt, if_neg (Nat.not_succ_le_self _)]
      exact hw
    · rw [List.getElem?_eq_none (by rw [List.length_append]; exact hgt)] at hr'
      cases hr'

/-- What comes after the log does not matter to it. -/
theorem Chained.extend {Hs : ℕ → History} {rs : List WalRecord} (hc : Chained rs Hs) (H : History) :
    Chained rs (extendAt Hs rs.length H) where
  start := (if_pos (Nat.zero_le _)).trans hc.start
  step := fun n r hr => by
    have hlt : n < rs.length := (List.getElem?_eq_some_iff.1 hr).1
    rw [extendAt, if_pos hlt.le, extendAt, if_pos (Nat.succ_le_of_lt hlt)]
    exact hc.step n r hr

namespace Host

/-- What the callers of the write path promise: no two writes of a key carry one clock reading
unless the later one carries the greater sequence number, also against what is logged, and the clock
of a new process is past what is logged. -/
structure Promised (h : Host) (ws : List DmlWrite) : Prop where
  contract : SeqContract ws
  seq_lt : ∀ w ∈ ws, ∀ r ∈ h.log, ∀ v, Redo.insert v ∈ r.redos → v.businessKey = w.key →
    v.sysFrom = w.now → ∀ b ∈ w.seq, v.seq < b
  clock : h.engine.writer.writer.lastCommit = none → ∀ w ∈ ws, ∀ r ∈ h.log, ∀ redo ∈ r.redos,
    redo.instant ≤ w.now

variable {h : Host} {Hs : ℕ → History} {ws : List DmlWrite}

/-- What the table holds is in the log. -/
theorem Sane.exists_records (hs : h.Sane Hs) {k : BusinessKey} {ev : KeyEvent}
    (hev : ev ∈ Hs h.log.length k) : ∃ r ∈ h.log, ∃ redo ∈ r.redos, redo.Records k ev := by
  have hwr := hs.safe.chained.writes_empty le_rfl
  rw [List.take_length] at hwr
  rcases hwr.exists_records hev with hnone | ⟨redo, hmem, hrec⟩
  · cases hnone
  · obtain ⟨r, hr, hredo⟩ := List.mem_flatMap.1 hmem
    exact ⟨r, hr, redo, hredo, hrec⟩

/-- The promises, as they bear on the histories. -/
theorem Sane.takes (hs : h.Sane Hs) (hp : h.Promised ws) : (Hs h.log.length).Takes ws := by
  refine ⟨hp.contract, fun w hw ev hev hnow x hx b hb => ?_⟩
  obtain ⟨r, hr, redo, hredo, -, hval⟩ := hs.exists_records hev
  rw [hval x hx] at hredo
  exact hp.seq_lt w hw r hr _ hredo rfl hnow b hb

theorem Sane.bounds (hs : h.Sane Hs) (hp : h.Promised ws) :
    ∀ w ∈ ws, h.engine.writer.writer.Bounds (Hs h.log.length) w.now := by
  intro w hw hprev k ev hev
  cases hlast : h.engine.writer.writer.lastCommit with
  | some t => exact (hs.stamped t hlast k ev hev).trans (hprev t hlast)
  | none =>
    obtain ⟨r, hr, redo, hredo, hinst, -⟩ := hs.exists_records hev
    rw [← hinst]
    exact hp.clock hlast w hw r hr redo hredo

/-! ### The invariant over writes and restarts -/

theorem vouched_origin (h : Host) (hH : Hs 0 = History.empty) : h.Vouched Hs 0 [] where
  durable := Nat.zero_le _
  sorted := List.Pairwise.nil
  read := by
    refine ⟨{ versions := [], retractions := [] }, rfl, fun v => ?_, fun c => ?_⟩
    · simp [hH, History.Asserts, History.periodsOf, History.empty]
    · simp [hH, History.Retracts, History.periodsOf, History.empty]
  kept := fun i hi => nomatch hi

theorem sane_fresh (validTime : Bool) (appends syncs : Faults) :
    (fresh validTime appends syncs).Sane fun _ => History.empty where
  safe := by
    refine ⟨⟨rfl, fun n r hr => by cases hr⟩, le_rfl, le_rfl, id, fun q hq => ?_⟩
    -- with no manifest there is only the point of an empty one
    have horigin : q = Manifest.point [] := by
      rcases mem_mayLoad.1 hq with ⟨-, rfl⟩ | ⟨n, -, -, rfl⟩
      · rfl
      · exact congrArg _ (List.take_nil ..)
    rw [horigin]
    exact ⟨vouched_origin _ rfl, le_rfl, .of_whole List.not_mem_nil⟩
  stores := Stores.empty {} {}
  stamped := fun t ht => nomatch ht
  idle := rfl
  memory := vouched_origin _ rfl
  sealed := fun v => by
    simp [fresh, History.Asserts, History.periodsOf, History.empty]
  below := fun i hi => nomatch hi
  tombstones := fun c => by simp [fresh, Host.log]

/-- The histories of a log agree up to its length. -/
theorem Vouched.congr {Hs' : ℕ → History} {floor : ℕ} {segs : List ℕ} (hv : h.Vouched Hs floor segs)
    (hH : Hs' floor = Hs floor) : h.Vouched Hs' floor segs :=
  ⟨hv.durable, hv.sorted, by rw [hH]; exact hv.read, hv.kept⟩

/-- The files of a host are those of another, whose log is at least as durable and as legible. -/
theorem Safe.of_files {g : Host} (hs : h.Safe Hs) {Hs' : ℕ → History}
    (hH : ∀ n ≤ h.log.length, Hs' n = Hs n) (hchain : Chained g.log Hs')
    (hb : g.engine.writer.wal.durableEnd ≤ g.log.length)
    (hdur : h.engine.writer.wal.durableEnd ≤ g.engine.writer.wal.durableEnd)
    (hlegible : ∀ q ∈ h.mayLoad, Legible g.log q)
    (hfiles : g.engine.segments = h.engine.segments ∧ g.unsynced = h.unsynced ∧
      g.unfenced = h.unfenced)
    (hman : g.engine.manifest = h.engine.manifest ∧ g.manifestSynced = h.manifestSynced ∧
      g.manifestMade = h.manifestMade ∧ g.manifestFenced = h.manifestFenced) :
    g.Safe Hs' ∧ ∀ floor segs, h.Vouched Hs floor segs → g.Vouched Hs' floor segs := by
  obtain ⟨hseg, huns, hunf⟩ := hfiles
  obtain ⟨hman, hsync, hmade, hfenced⟩ := hman
  have hv : ∀ floor segs, h.Vouched Hs floor segs → g.Vouched Hs' floor segs := by
    intro floor segs hv
    have hsame : g.Vouched Hs floor segs := hv.of_same hdur fun i _ => by
      rw [hseg, huns, hunf]
      exact ⟨rfl, id, id⟩
    exact hsame.congr (hH _ (hv.durable.trans hs.bounded))
  refine ⟨⟨hchain, hb, ?_, ?_, fun q hq => ?_⟩, hv⟩
  · rw [hman, hsync]; exact hs.synced
  · rw [hmade, hfenced]; exact hs.fenced
  · have hq' : q ∈ h.mayLoad := by
      rw [mem_mayLoad] at hq ⊢
      rwa [hman, hsync, hfenced] at hq
    obtain ⟨hvq, hfence, -⟩ := hs.loadable q hq'
    exact ⟨hv _ _ hvq, hfence.trans hdur, hlegible q hq'⟩

/-- **The write path keeps the invariant**, whatever the log's disk does, if it does not log behind
a torn frame. -/
theorem Sane.wrote (hs : h.Sane Hs) (hclear : h.Clear .append) {e : Engine} {H' : History}
    (hw : h.engine.Wrote (Hs h.log.length) e H') :
    ∃ Hs', Sane { h with engine := e } Hs' ∧ (∀ n ≤ h.log.length, Hs' n = Hs n) ∧
      Hs' e.writer.wal.records.length = H' ∧
        ∃ rs, e.writer.wal.records = h.log ++ rs ∧ rs.length ≤ 1 := by
  have hfloor : h.engine.replayFloor ≤ h.log.length := hs.memory.durable.trans hs.safe.bounded
  cases hw with
  | refused hidle hwal hsame hstamp =>
    rename_i dw t'
    generalize hg : ({ h with engine := { h.engine with writer := dw, tiers := t' } } : Host) = g
    have hlog : g.log = h.log := by subst hg; exact hwal.same
    obtain ⟨hdur, hb⟩ := hwal.durable hs.safe.bounded
    obtain ⟨hsafe, hv⟩ := hs.safe.of_files (g := g) (fun n _ => rfl)
      (by rw [hlog]; exact hs.safe.chained) (by subst hg; exact hb) (by subst hg; exact hdur)
      (fun q hq => by rw [hlog]; exact (hs.safe.loadable q hq).legible)
      (by subst hg; exact ⟨rfl, rfl, rfl⟩) (by subst hg; exact ⟨rfl, rfl, rfl, rfl⟩)
    have hlen : dw.wal.records.length = h.log.length := by rw [hwal.same]; rfl
    refine ⟨Hs, ?_, fun n _ => rfl, congrArg Hs hlen, [],
      by rw [List.append_nil]; exact hwal.same, Nat.zero_le _⟩
    have hmem := hv _ _ hs.memory
    refine ⟨hsafe, ?_, ?_, ?_, ?_, ?_, ?_, ?_⟩
    · rw [hlog]; subst hg; exact hsame.stores hs.stores
    · rw [hlog]; subst hg
      intro prev hprev k ev hev
      rcases hstamp with hlast | ⟨t, ht, hle⟩
      · exact hs.stamped prev (hlast ▸ hprev) k ev hev
      · rw [Option.mem_unique hprev ht]
        exact hle k ev hev
    · subst hg; exact hidle
    · subst hg; exact hmem
    · subst hg; exact hs.sealed
    · subst hg; exact hs.below
    · rw [hlog]; subst hg
      intro c
      change c ∈ t'.delta.retractions ↔ _
      rw [hsame.retractions]
      exact hs.tombstones c
  | logged hidle hwal hwrites hstores hstaged hstamp =>
    rename_i dw t' txnId rs
    generalize hg : ({ h with engine := { h.engine with writer := dw, tiers := t' } } : Host) = g
    have hlog : g.log = h.log ++ [.whole txnId rs] := by subst hg; exact hwal.records
    have hlen : g.log.length = h.log.length + 1 := by rw [hlog, List.length_append]; rfl
    obtain ⟨hdur, hb⟩ := hwal.durable hs.safe.bounded
    have hold : ∀ n ≤ h.log.length, extendAt Hs h.log.length H' n = Hs n := fun n hn => if_pos hn
    have hnew : extendAt Hs h.log.length H' g.log.length = H' :=
      if_neg (by rw [hlen]; exact Nat.not_succ_le_self _)
    obtain ⟨hsafe, hv⟩ := hs.safe.of_files (g := g) hold
      (by rw [hlog]; exact hs.safe.chained.concat hwrites) (by subst hg; exact hb)
      (by subst hg; exact hdur) (fun q hq => by rw [hlog]; exact .concat (hclear q hq) nofun)
      (by subst hg; exact ⟨rfl, rfl, rfl⟩) (by subst hg; exact ⟨rfl, rfl, rfl, rfl⟩)
    have hend : extendAt Hs h.log.length H' dw.wal.records.length = H' := by
      subst hg; exact hnew
    refine ⟨extendAt Hs h.log.length H', ?_, hold, hend, [.whole txnId rs], hwal.records, le_rfl⟩
    have hmem := hv _ _ hs.memory
    refine ⟨hsafe, ?_, ?_, ?_, ?_, ?_, ?_, ?_⟩
    · rw [hnew]; subst hg; exact hstores
    · rw [hnew]; subst hg
      intro prev hprev k ev hev
      obtain ⟨t, ht, hle⟩ := hstamp
      rw [Option.mem_unique hprev ht]
      exact hle k ev hev
    · subst hg; exact hidle
    · subst hg; exact hmem
    · subst hg
      intro v
      refine (hs.sealed v).trans ?_
      rw [← hold _ hfloor]
    · subst hg; exact hs.below
    · rw [hlog]; subst hg
      intro c
      change c ∈ t'.delta.retractions ↔
        Redo.retract c ∈ ((h.log ++ [WalRecord.whole txnId rs]).drop h.engine.replayFloor
        ).flatMap WalRecord.redos
      rw [hstaged.retractions, List.drop_append_of_le_length hfloor, List.flatMap_append,
        List.flatMap_singleton, List.mem_append]
      exact or_congr_left (hs.tombstones c)

/-- The index after the last of an ascending list is past all of them. -/
theorem lt_succ_last {l : List ℕ} (hl : l.Pairwise (· < ·)) {i : ℕ} (hi : i ∈ l) :
    i < (l.getLast?.map (· + 1)).getD 0 := by
  rcases l.eq_nil_or_concat with rfl | ⟨l', a, rfl⟩
  · cases hi
  · rw [List.concat_eq_append] at hl hi ⊢
    rw [List.getLast?_concat]
    rcases List.mem_append.1 hi with hi | hi
    · exact ((List.pairwise_append.1 hl).2.2 i hi a (by simp)).trans (Nat.lt_succ_self a)
    · rw [List.mem_singleton.1 hi]
      exact Nat.lt_succ_self a

/-- After a restart, recovery may load what it may have loaded before. -/
theorem Crash.boot_mayLoad (hs : h.Safe Hs) {d : Disk} {made : Bool} (hc : h.Crash d made)
    {validTime : Bool} {Hf H : History} {e : Engine} (hrec : d.Recovered validTime Hf H e)
    {appends syncs : Faults} {q : RecoveryPoint} (hq : q ∈ (boot d made e appends syncs).mayLoad) :
    q ∈ h.mayLoad ∧ (q = Manifest.point [] ∨ q = d.manifest.point) := by
  have hman : (boot d made e appends syncs).engine.manifest = d.manifest := hrec.manifest
  rcases mem_mayLoad.1 hq with ⟨hunmade, rfl⟩ | ⟨m, hm, -, rfl⟩
  · refine ⟨mem_mayLoad.2 (.inl ⟨?_, rfl⟩), .inl rfl⟩
    have hunmade : made = false := hunmade
    rcases hc.manifest with ⟨-, -, hmade, -⟩ | ⟨hunfenced, -⟩
    · -- the manifest was never made
      exact hs.unfenced (hmade ▸ hunmade)
    · -- or its directory entry was lost
      exact hunfenced
  · rw [hman, List.take_of_length_le (show d.manifest.length ≤ m from hm)]
    exact ⟨hc.point_mem, .inr rfl⟩

/-- **A restart keeps the invariant**: the recovered engine stores what the surviving log says. -/
theorem Safe.restart (hs : h.Safe Hs) {d : Disk} {made : Bool} (hc : h.Crash d made) {n : ℕ}
    (hdur : h.engine.writer.wal.durableEnd ≤ n) (hn : n ≤ h.log.length)
    (hdlog : d.log = h.log.take n ∨ d.log = h.log.take n ++ [.torn])
    {validTime : Bool} {e : Engine}
    (hrec : d.Recovered validTime (Hs d.manifest.point.replayFloor) (Hs n) e)
    (appends syncs : Faults) :
    (boot d made e appends syncs).Sane (extendAt Hs n (Hs n)) ∧
      (boot d made e appends syncs).log = d.log := by
  obtain ⟨hv, hfence, hlegible⟩ := hs.loadable _ hc.point_mem
  have hfloor := hv.durable.trans hdur
  have htake : (h.log.take n).length = n := by rw [List.length_take]; exact Nat.min_eq_left hn
  have hlen : n ≤ d.log.length := by
    rcases hdlog with hdlog | hdlog <;> rw [hdlog]
    · exact htake.ge
    · rw [List.length_append, htake]
      exact Nat.le_add_right _ _
  have hold : ∀ m ≤ n, extendAt Hs n (Hs n) m = Hs m := fun m hm => if_pos hm
  -- the torn frame counts as a record that changes nothing
  have hnew : extendAt Hs n (Hs n) d.log.length = Hs n := by
    by_cases hle : d.log.length ≤ n
    · rw [hold _ hle, le_antisymm hle hlen]
    · exact if_neg hle
  have hchain : Chained d.log (extendAt Hs n (Hs n)) := by
    have hpart := hs.chained.take n
    rcases hdlog with hdlog | hdlog
    · have := hpart.extend (Hs n)
      rwa [htake, ← hdlog] at this
    · have := hpart.concat (r := .torn) (H := Hs n) (by rw [htake]; exact .nil _)
      rwa [htake, ← hdlog] at this
  have hlog : (boot d made e appends syncs).log = d.log := by
    simp only [Host.log, boot, hrec.writer]
  have hend : (boot d made e appends syncs).engine.writer.wal.durableEnd = d.log.length := by
    simp only [boot, hrec.writer]
  obtain ⟨m, -, -, -, hholds⟩ := hs.holds hc
  -- what was loaded is vouched for by the new host, whose segments recovery has just read
  have hpoint : (boot d made e appends syncs).Vouched (extendAt Hs n (Hs n))
      d.manifest.point.replayFloor d.manifest.point.liveSegments := by
    obtain ⟨s, hread, hvers⟩ := hholds.read
    refine Vouched.congr ⟨?_, hv.sorted, ⟨s, ?_, hvers⟩, fun i hi => ⟨fun hm => (by cases hm),
      fun hm => ?_⟩⟩ (hold _ hfloor)
    · rw [hend]
      exact hfloor.trans hlen
    · rw [← hread]
      refine readSegments_congr fun i hi => ?_
      change e.segments[i]? = _
      rw [hrec.segments, Std.ExtTreeMap.getElem?_filter']
      cases d.segments[i]? <;> simp [hi]
    · have hni := (List.mem_filter.1 hm).2
      rw [hrec.live] at hni
      exact of_decide_eq_true hni hi
  refine ⟨⟨⟨?_, ?_, ?_, id, fun q hq => ?_⟩, ?_, ?_, ?_, ?_, ?_, ?_, ?_⟩, hlog⟩
  · rw [hlog]; exact hchain
  · rw [hend, hlog]
  · change d.manifest.length ≤ e.manifest.length
    rw [hrec.manifest]
  · obtain ⟨hq, hcases⟩ := hc.boot_mayLoad hs hrec hq
    obtain ⟨-, hfence, hlegible⟩ := hs.loadable q hq
    refine ⟨?_, ?_, ?_⟩
    · rcases hcases with rfl | rfl
      · exact vouched_origin _ hchain.start
      · exact hpoint
    · rw [hend]
      exact (hfence.trans hdur).trans hlen
    · rw [hlog]
      exact hlegible.crashed (hfence.trans hdur) hn hdlog
  · rw [hlog, hnew]; exact hrec.stores
  · intro prev hprev
    have hnone : e.writer.writer.lastCommit = none := by rw [hrec.writer]
    have : e.writer.writer.lastCommit = some prev := hprev
    rw [hnone] at this
    cases this
  · change e.writer.group = none
    rw [hrec.writer]
  · change Vouched _ _ e.replayFloor e.liveSegments
    rw [hrec.floor, hrec.live]
    exact hpoint
  · change ∀ v, v ∈ e.sealedVersions ↔ (extendAt Hs n (Hs n) e.replayFloor).Asserts v
    rw [hrec.floor, hold _ hfloor]
    exact hrec.sealed
  · change ∀ i ∈ e.liveSegments, i < e.nextSegmentIndex
    rw [hrec.live, hrec.next]
    exact fun i hi => lt_succ_last hv.sorted hi
  · rw [hlog]
    change ∀ c, c ∈ e.tiers.delta.retractions ↔
      Redo.retract c ∈ (d.log.drop e.replayFloor).flatMap _
    rw [hrec.floor]
    exact hrec.tombstones

/-! ### Runs -/

/-- `Run validTime ok hosts` : the hosts, newest first, are the states of a table between two calls.
A call changes the newest one, whatever the disk does; a crash between two calls, or inside a
checkpoint, a flush or a compaction, is followed by recovery.  `ok` restricts when the calls are
made. -/
inductive Run (validTime : Bool) (ok : Host → Act → Prop) : List Host → Prop
  | fresh (appends syncs : Faults) : Run validTime ok [Host.fresh validTime appends syncs]
  | write {h : Host} {past : List Host} (run : Run validTime ok (h :: past)) {w : DmlWrite}
      (clear : ok h .append) (promised : h.Promised [w]) : Run validTime ok (h.write w :: h :: past)
  | group {h : Host} {past : List Host} (run : Run validTime ok (h :: past)) {ws : List DmlWrite}
      (clear : ok h .append) (promised : h.Promised ws) (txnId : Option TxnId) :
      Run validTime ok (h.group ws txnId :: h :: past)
  | upkeep {h : Host} {past : List Host} (run : Run validTime ok (h :: past)) {u : Upkeep}
      (clear : ok h (.upkeep u)) (os : Faults) : Run validTime ok (h.upkeep u os :: h :: past)
  | restart {h : Host} {past : List Host} (run : Run validTime ok (h :: past)) {d : Disk}
      {made : Bool} (crash : h.Crash d made) {e : Engine}
      (recovered : Engine.recover d validTime = .ok e) (appends syncs : Faults) :
      Run validTime ok (boot d made e appends syncs :: h :: past)
  | restartIn {h : Host} {past : List Host} (run : Run validTime ok (h :: past)) {u : Upkeep}
      (clear : ok h (.upkeep u)) {os : Faults} {n : ℕ} {d : Disk} {made : Bool}
      (crash : (h.cut u os n).Crash d made) {e : Engine}
      (recovered : Engine.recover d validTime = .ok e) (appends syncs : Faults) :
      Run validTime ok (boot d made e appends syncs :: h :: past)

/-- For every part of the log there is a state of the run that had just that log. -/
def Traced (hosts : List Host) (log : List WalRecord) (Hs : ℕ → History) : Prop :=
  ∀ n ≤ log.length, ∃ g ∈ hosts, g.log = log.take n ∧
    Stores g.engine.tiers g.engine.sealedVersions (Hs n)

/-- A log with one more record is traced by its states and the one that wrote the record. -/
theorem Traced.wrote {hosts : List Host} {Hs' : ℕ → History} (ht : Traced hosts h.log Hs) {g : Host}
    (hg : g.Sane Hs') (hH : ∀ n ≤ h.log.length, Hs' n = Hs n)
    (hrs : ∃ rs, g.log = h.log ++ rs ∧ rs.length ≤ 1) : Traced (g :: hosts) g.log Hs' := by
  obtain ⟨rs, hlog, hlen⟩ := hrs
  intro n hn
  -- a state that the run had before, or the one that wrote the record
  by_cases hle : n ≤ h.log.length
  · obtain ⟨h₀, hmem, hlog₀, hst⟩ := ht n hle
    refine ⟨h₀, List.mem_cons_of_mem _ hmem, ?_, by rw [hH n hle]; exact hst⟩
    rw [hlog₀, hlog, List.take_append_of_le_length hle]
  · have hn' : n = g.log.length := by
      rw [hlog, List.length_append] at hn ⊢
      omega
    subst hn'
    exact ⟨g, List.mem_cons_self, List.take_length.symm, hg.stores⟩

/-- A restart is traced by the states of the log that is left, and by itself if that has a torn
frame. -/
theorem Traced.restart {hosts : List Host} {g : Host} (ht : Traced hosts g.log Hs)
    (hs : g.Safe Hs) {d : Disk} {made validTime : Bool} (crash : g.Crash d made) {e : Engine}
    (recovered : Engine.recover d validTime = .ok e) (appends syncs : Faults) :
    ∃ Hs', (boot d made e appends syncs).Sane Hs' ∧
      Traced (boot d made e appends syncs :: hosts) (boot d made e appends syncs).log Hs' := by
  obtain ⟨n, hdur, hn, hdlog, hholds⟩ := hs.holds crash
  obtain ⟨e', he', hrec⟩ := hholds.recover validTime
  rw [recovered] at he'
  cases he'
  obtain ⟨hboot, hlog⟩ := hs.restart crash hdur hn hdlog hrec appends syncs
  refine ⟨_, hboot, fun k hk => ?_⟩
  rw [hlog] at hk ⊢
  have htake : (g.log.take n).length = n := by rw [List.length_take]; exact Nat.min_eq_left hn
  -- a part of the log that was left, or all of it with the torn frame
  by_cases hle : k ≤ n
  · obtain ⟨g₀, hmem, hlog₀, hst⟩ := ht k (hle.trans hn)
    refine ⟨g₀, List.mem_cons_of_mem _ hmem, ?_, by rw [extendAt, if_pos hle]; exact hst⟩
    rw [hlog₀]
    rcases hdlog with hdlog | hdlog <;> rw [hdlog]
    · rw [List.take_take, Nat.min_eq_left hle]
    · rw [List.take_append_of_le_length (by rw [htake]; exact hle), List.take_take,
        Nat.min_eq_left hle]
  · have hend : k = d.log.length := by
      refine le_antisymm hk ?_
      rcases hdlog with hdlog | hdlog <;> rw [hdlog]
      · rw [htake]; exact (not_le.1 hle).le
      · rw [List.length_append, htake]; exact not_le.1 hle
    rw [hend, List.take_length]
    exact ⟨_, List.mem_cons_self, hlog, by rw [← hlog]; exact hboot.stores⟩

/-- **Every run whose calls do no harm to what recovery may look for** keeps the invariant. -/
theorem Run.sane {validTime : Bool} {hosts : List Host} (hrun : Run validTime Clear hosts) :
    ∃ h past Hs, hosts = h :: past ∧ h.Sane Hs ∧ Traced hosts h.log Hs := by
  induction hrun with
  | fresh appends syncs =>
    refine ⟨_, _, _, rfl, sane_fresh validTime appends syncs, fun n hn => ?_⟩
    refine ⟨_, List.mem_cons_self, ?_, (sane_fresh validTime appends syncs).stores⟩
    rw [Nat.le_zero.1 hn]
    rfl
  | write run clear promised ih =>
    obtain ⟨h, past, Hs, heq, hs, ht⟩ := ih
    cases heq
    obtain ⟨H', hw, -⟩ := wrote_write hs.stores hs.idle (hs.bounds promised _ (by simp))
      (hs.takes promised)
    obtain ⟨Hs', hs', hH, -, hrs⟩ := hs.wrote clear hw
    exact ⟨_, _, Hs', rfl, hs', ht.wrote hs' hH hrs⟩
  | group run clear promised txnId ih =>
    obtain ⟨h, past, Hs, heq, hs, ht⟩ := ih
    cases heq
    obtain ⟨H', hw, -⟩ := wrote_groupCommit hs.stores txnId (hs.bounds promised)
      (hs.takes promised)
    obtain ⟨Hs', hs', hH, -, hrs⟩ := hs.wrote clear hw
    exact ⟨_, _, Hs', rfl, hs', ht.wrote hs' hH hrs⟩
  | upkeep run clear os ih =>
    obtain ⟨h, past, Hs, heq, hs, ht⟩ := ih
    cases heq
    refine ⟨_, _, Hs, rfl, hs.upkeep clear os, ht.wrote (hs.upkeep clear os) (fun n _ => rfl) ?_⟩
    exact ⟨[], by rw [List.append_nil]; exact (log_runOps hs.safe.bounded _ os).2, Nat.zero_le _⟩
  | restart run crash recovered appends syncs ih =>
    obtain ⟨h, past, Hs, heq, hs, ht⟩ := ih
    cases heq
    obtain ⟨Hs', hs', ht'⟩ := ht.restart hs.safe crash recovered appends syncs
    exact ⟨_, _, Hs', rfl, hs', ht'⟩
  | @restartIn h past run u clear os n d made crash e recovered appends syncs ih =>
    obtain ⟨_, _, Hs, heq, hs, ht⟩ := ih
    cases heq
    have hsame : (h.cut u os n).log = h.log := (log_runOps hs.safe.bounded _ os).2
    -- the crash comes after the steps so far, none of which logs anything
    rw [← hsame] at ht
    obtain ⟨Hs', hs', ht'⟩ := ht.restart (hs.cut clear os n).safe crash recovered appends syncs
    exact ⟨_, _, Hs', rfl, hs', ht'⟩

end Host

open Host

/-- Recovery from what a crash leaves of a safe host. -/
theorem Host.Safe.recover {h : Host} {Hs : ℕ → History} (hs : h.Safe Hs) {d : Disk} {made : Bool}
    (hc : h.Crash d made) (validTime : Bool) :
    ∃ n e, h.engine.writer.wal.durableEnd ≤ n ∧ n ≤ h.log.length ∧
      (d.log = h.log.take n ∨ d.log = h.log.take n ++ [.torn]) ∧
      Engine.recover d validTime = .ok e ∧ Stores e.tiers e.sealedVersions (Hs n) ∧
      ∀ i, e.segments[i]?.isSome → i ∈ e.liveSegments := by
  obtain ⟨n, hdur, hn, hdlog, hholds⟩ := hs.holds hc
  obtain ⟨e, he, hrec⟩ := hholds.recover validTime
  refine ⟨n, e, hdur, hn, hdlog, he, hrec.stores, fun i hi => ?_⟩
  rw [hrec.segments, Std.ExtTreeMap.getElem?_filter'] at hi
  rw [hrec.live]
  by_contra hni
  cases hd : d.segments[i]? <;> simp [hd, hni] at hi

/-! ### Crashes -/

/-- A record that recovery loads names a segment that is not there. -/
theorem recover_error_of_missing {d : Disk}
    (hsorted : d.manifest.point.liveSegments.Pairwise (· < ·)) {i : ℕ}
    (hi : i ∈ d.manifest.point.liveSegments) (hnone : d.segments[i]? = none) (validTime : Bool) :
    Engine.recover d validTime = .error .segment := by
  obtain ⟨-, -, hlive⟩ := d.manifest.point_fields
  -- sweeping the files that are not live does not bring it back
  have hgone : (d.segments.filter fun i _ => i ∈ d.manifest.point.liveSegments)[i]? = none := by
    rw [Std.ExtTreeMap.getElem?_filter', hnone]
    rfl
  simp only [Engine.recover, recoverWithCommits, hlive, KeyedMap.values_ofList hsorted,
    readSegments_eq_none hi (readSegment_eq_none hgone)]

/-- A crash may leave the files as the engine sees them. -/
theorem Host.crash_disk {h : Host} (hb : h.engine.writer.wal.durableEnd ≤ h.log.length)
    (hsync : h.manifestSynced ≤ h.engine.manifest.length) {made : Bool}
    (hmade : h.manifestMade = made) : h.Crash h.engine.disk made where
  log := ⟨_, hb, le_rfl, .inl List.take_length.symm⟩
  manifest := .inl ⟨_, hsync, hmade.symm, .inl ⟨le_rfl, List.take_length.symm⟩⟩
  segments := fun _ _ _ => rfl

/-- An insert at instant 10. -/
def firstWrite : DmlWrite := ⟨10, [1], 1, [], .insert none (some [7]) 0⟩

/-- An insert of another key at instant 20. -/
def secondWrite : DmlWrite := ⟨20, [2], 2, [], .insert none none 0⟩

/-- A table with one row. -/
def oneRow : Host := (Host.fresh false [] []).write firstWrite

theorem run_oneRow {ok : Host → Act → Prop} (hok : ok (Host.fresh false [] []) .append) :
    Run false ok [oneRow, Host.fresh false [] []] := by
  refine .write (.fresh [] []) hok ⟨List.pairwise_singleton .., ?_, ?_⟩
  · intro w _ r hr
    cases hr
  · intro _ w _ r hr
    cases hr

/-- The row is sealed, and another one is written. -/
def twoRows : Host := (oneRow.upkeep .flush []).write secondWrite

theorem run_twoRows {ok : Host → Act → Prop} (hfirst : ok (Host.fresh false [] []) .append)
    (hflush : ok oneRow (.upkeep .flush)) (hsecond : ok (oneRow.upkeep .flush []) .append) :
    Run false ok [twoRows, oneRow.upkeep .flush [], oneRow, Host.fresh false [] []] := by
  have hredos : (oneRow.upkeep .flush []).log.flatMap WalRecord.redos =
      [.insert (openVersion [1] 10 0 (some [7]) 1 [])] := by decide
  refine .write (.upkeep (run_oneRow hfirst) hflush []) hsecond ⟨List.pairwise_singleton .., ?_,
    fun hlast => ?_⟩
  · intro w hw r hr v hv hkey
    have hmem := List.mem_flatMap.2 ⟨r, hr, hv⟩
    rw [hredos, List.mem_singleton] at hmem
    cases hmem
    rw [List.mem_singleton.1 hw] at hkey
    cases hkey
  · have hsome : (oneRow.upkeep .flush []).engine.writer.writer.lastCommit = some 10 := by
      decide
    rw [hsome] at hlast
    cases hlast

/-- Two sealed rows. -/
def twoSegments : Host := twoRows.upkeep .flush []

/-- What a crash leaves of the second flush: its manifest record is torn. -/
def tornDisk : Disk :=
  { (twoRows.cut .flush [] 8).engine.disk with manifest :=
      (twoRows.cut .flush [] 8).engine.manifest.take 1 ++ [none] }

/-- The table is recovered, and flushed again. -/
def afterTorn : Host :=
  match Engine.recover tornDisk false with
  | .ok e => (boot tornDisk true e [] []).upkeep .flush []
  | .error _ => {}

/-- The fsync of a flush's segment fails. -/
def failedFlush : Host := oneRow.upkeep .flush (List.replicate 5 .done ++ [.failed])

/-- The manifest record of a flush is written, and its fsync fails. -/
def unsyncedRecord : Host := oneRow.upkeep .flush (List.replicate 10 .done ++ [.failed])

end SteleDb
