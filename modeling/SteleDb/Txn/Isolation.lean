import SteleDb.Txn.Manager

/-!
# Snapshot isolation

What a transaction manager promises over any number of processes, each of which ends in a crash and
leaves its log to the next.  Within one life a commit is later than every snapshot handed out before
it and is refused for a conflict exactly if an accepted commit wrote one of its keys after its
snapshot.  Over all lives the log is one chain in order of time, with every accepted commit in it.

The log may hold more than was accepted: a record whose fsync has failed is there or not, and the
crash decides.  It has then a number that no accepted commit has.  And it may end in part of a
record, in which case no manager starts on it.

* `Process.Sound` : what holds between calls, with `Process.Sound.calls`;
* `Keeps` : what holds between lives, with `Keeps.lives`;
* `TxnManager.snapshot_isolation` : times, conflicts, numbers and the log of every run;
* `TxnManager.restart_forgets_snapshot` : what does not hold across a restart.
-/

namespace SteleDb

open CommitLog

/-! ### Outcomes -/

/-- A commit among the outcomes wrote a key of the transaction after its snapshot. -/
def ConflictsWith (outcomes : List TxnOutcome) (txn : Transaction) : Prop :=
  ∃ txn' c, .committed txn' c ∈ outcomes ∧ txn.snapshot < c.commitTs ∧
    ∃ key ∈ txn.writes, key ∈ txn'.writes

/-- Commits are later than the snapshots before them, and conflicts are what they should be. -/
structure Isolated (outcomes : List TxnOutcome) : Prop where
  times : outcomes.Pairwise fun o o' =>
    ∀ s ∈ o.snapshot?, ∀ c ∈ o'.commit?, s < c.commitTs
  conflicts : ∀ before o after txn, outcomes = before ++ o :: after → o.asked? = some txn →
    (o = .refused txn .conflict ↔ ConflictsWith before txn)

theorem Isolated.concat {outcomes : List TxnOutcome} {o : TxnOutcome} (h : Isolated outcomes)
    (htimes : ∀ c ∈ o.commit?, ∀ o' ∈ outcomes, ∀ s ∈ o'.snapshot?, s < c.commitTs)
    (hconflicts : ∀ txn, o.asked? = some txn →
      (o = .refused txn .conflict ↔ ConflictsWith outcomes txn)) : Isolated (outcomes ++ [o]) where
  times := by
    refine List.pairwise_append.2 ⟨h.times, List.pairwise_singleton _ _, ?_⟩
    intro o' ho' o'' ho'' s hs c hc
    rw [List.mem_singleton.1 ho''] at hc
    exact htimes c hc o' ho' s hs
  conflicts := by
    intro before o' after txn heq hasked
    rcases List.eq_nil_or_concat after with rfl | ⟨after', o'', rfl⟩
    · obtain ⟨rfl, hlast⟩ := List.append_inj' heq rfl
      cases hlast
      exact hconflicts txn hasked
    · rw [List.concat_eq_append, ← List.cons_append, ← List.append_assoc] at heq
      obtain ⟨rfl, -⟩ := List.append_inj' heq rfl
      exact h.conflicts before o' after' txn rfl hasked

/-- The index has, for each key, the last commit that wrote it. -/
def Indexes (index : OrdMap BusinessKey SystemTimeMicros) (outcomes : List TxnOutcome) : Prop :=
  ∀ key, (∀ writtenAt, index[key]? = some writtenAt →
      ∃ txn c, .committed txn c ∈ outcomes ∧ key ∈ txn.writes ∧ c.commitTs = writtenAt) ∧
    ∀ txn c, .committed txn c ∈ outcomes → key ∈ txn.writes →
      ∃ writtenAt, index[key]? = some writtenAt ∧ c.commitTs ≤ writtenAt

theorem conflicts_iff {m : TxnManager} {outcomes : List TxnOutcome}
    (h : Indexes m.writeIndex outcomes) (txn : Transaction) :
    m.conflicts txn = true ↔ ConflictsWith outcomes txn := by
  simp only [TxnManager.conflicts, List.any_eq_true, Option.any_eq_true, decide_eq_true_eq]
  constructor
  · rintro ⟨key, hkey, writtenAt, hget, hlt⟩
    obtain ⟨txn', c, hmem, hkey', rfl⟩ := (h key).1 writtenAt hget
    exact ⟨txn', c, hmem, hlt, key, hkey, hkey'⟩
  · rintro ⟨txn', c, hmem, hlt, key, hkey, hkey'⟩
    obtain ⟨writtenAt, hget, hle⟩ := (h key).2 txn' c hmem hkey'
    exact ⟨key, hkey, writtenAt, hget, hlt.trans_le hle⟩

/-- Another commit, later than all so far. -/
theorem Indexes.publish {index : OrdMap BusinessKey SystemTimeMicros} {outcomes : List TxnOutcome}
    (h : Indexes index outcomes) (txn : Transaction) (c : Committed)
    (hlate : ∀ txn' c', .committed txn' c' ∈ outcomes → c'.commitTs ≤ c.commitTs) :
    Indexes (OrdMap.insertAll index (txn.writes.map fun key => (key, c.commitTs)))
      (outcomes ++ [.committed txn c]) := by
  intro key
  by_cases hkey : key ∈ txn.writes
  · have hget : (OrdMap.insertAll index (txn.writes.map fun key => (key, c.commitTs)))[key]? =
        some c.commitTs := by
      have hmem : (key, c.commitTs) ∈ txn.writes.map fun key => (key, c.commitTs) :=
        List.mem_map.2 ⟨key, hkey, rfl⟩
      refine OrdMap.getElem?_insertAll_of_mem hmem ?_ index
      intro e he _
      obtain ⟨key', -, rfl⟩ := List.mem_map.1 he
      rfl
    rw [hget]
    refine ⟨?_, ?_⟩
    · intro writtenAt heq
      exact ⟨txn, c, by simp, hkey, Option.some.inj heq⟩
    · intro txn' c' hmem _
      refine ⟨c.commitTs, rfl, ?_⟩
      rcases List.mem_append.1 hmem with hmem | hmem
      · exact hlate txn' c' hmem
      · cases List.mem_singleton.1 hmem
        exact le_rfl
  · have hget : (OrdMap.insertAll index (txn.writes.map fun key => (key, c.commitTs)))[key]? =
        index[key]? := by
      refine OrdMap.getElem?_insertAll_of_notMem ?_ index
      intro e he
      obtain ⟨key', hkey', rfl⟩ := List.mem_map.1 he
      rintro rfl
      exact hkey hkey'
    rw [hget]
    refine ⟨?_, ?_⟩
    · intro writtenAt heq
      obtain ⟨txn', c', hmem, hrest⟩ := (h key).1 writtenAt heq
      exact ⟨txn', c', List.mem_append_left _ hmem, hrest⟩
    · intro txn' c' hmem hkey'
      rcases List.mem_append.1 hmem with hmem | hmem
      · exact (h key).2 txn' c' hmem hkey'
      · cases List.mem_singleton.1 hmem
        exact absurd hkey' hkey

/-- An outcome that is no commit. -/
theorem Indexes.pass {index : OrdMap BusinessKey SystemTimeMicros} {outcomes : List TxnOutcome}
    {o : TxnOutcome} (h : Indexes index outcomes) (ho : o.commit? = none) :
    Indexes index (outcomes ++ [o]) := by
  intro key
  refine ⟨?_, ?_⟩
  · intro writtenAt heq
    obtain ⟨txn, c, hmem, hrest⟩ := (h key).1 writtenAt heq
    exact ⟨txn, c, List.mem_append_left _ hmem, hrest⟩
  · intro txn c hmem hkey
    rcases List.mem_append.1 hmem with hmem | hmem
    · exact (h key).2 txn c hmem hkey
    · rw [← List.mem_singleton.1 hmem] at ho
      cases ho

/-! ### Between calls -/

namespace Process

/-- What holds of a process that found the records `old`, has had `log` accepted since and has those
`outcomes` behind it.  A record of which the fsync has failed is `extra`. -/
structure Sound (p : Process) (old log extra : List ChainRecord) (outcomes : List TxnOutcome) :
    Prop where
  placed : ∃ placed, p.manager.wal.Placed placed ∧
    placed.map Prod.fst = (old ++ log ++ extra).map ChainRecord.encode ∧
    ∀ r ∈ placed.take (old ++ log).length, r.2 ≤ p.manager.wal.durableEnd
  follows : Follows {} (old ++ log ++ extra)
  running : p.manager.wal.poisoned = false → extra = []
  extra_le : extra.length ≤ 1
  head : p.manager.commitHead = (chainOf (old ++ log)).head
  seq : p.manager.nextSeq = (chainOf (old ++ log)).seq + 1
  cursor : (chainOf (old ++ log)).commitTs ≤ p.manager.cursor
  cursor_pos : 0 ≤ p.manager.cursor
  cursor_lt : p.manager.cursor < systemTimeOpen
  typed : ∀ txn ∈ p.outstanding, txn.txnId < 2 ^ 64
  commits : accepted outcomes = log.map ChainRecord.committed
  snapshots : ∀ o ∈ outcomes, ∀ s ∈ o.snapshot?, s ≤ p.manager.cursor
  indexes : Indexes p.manager.writeIndex outcomes
  isolated : Isolated outcomes

variable {p : Process} {old log extra : List ChainRecord} {outcomes : List TxnOutcome}

/-- No commit is later than the cursor. -/
theorem Sound.commit_le (h : p.Sound old log extra outcomes) {txn : Transaction} {c : Committed}
    (hc : .committed txn c ∈ outcomes) : c.commitTs ≤ p.manager.cursor := by
  have hmem : c ∈ accepted outcomes := List.mem_filterMap.2 ⟨_, hc, rfl⟩
  rw [h.commits] at hmem
  obtain ⟨r, hr, rfl⟩ := List.mem_map.1 hmem
  have hle := (follows_append.1 h.follows).1.le_commitTs.2 r (List.mem_append_right _ hr)
  exact hle.trans h.cursor

theorem Sound.begin_ (h : p.Sound old log extra outcomes) (now : SystemTimeMicros) :
    (p.call (.begin_ now)).1.Sound old log extra (outcomes ++ (p.call (.begin_ now)).2) := by
  have hle : p.manager.cursor ≤ min (max now p.manager.cursor) (systemTimeOpen - 1) :=
    le_min (le_max_right _ _) (Int.le_sub_one_of_lt h.cursor_lt)
  have hlt : min (max now p.manager.cursor) (systemTimeOpen - 1) < systemTimeOpen :=
    (min_le_right _ _).trans_lt (Int.sub_one_lt_of_le le_rfl)
  refine { h with
    cursor := h.cursor.trans hle
    cursor_pos := h.cursor_pos.trans hle
    cursor_lt := hlt
    typed := ?_
    commits := ?_
    snapshots := ?_
    indexes := h.indexes.pass rfl
    isolated := h.isolated.concat (fun c hc => nomatch hc) fun txn htxn => nomatch htxn }
  · intro txn htxn
    rcases List.mem_append.1 htxn with htxn | htxn
    · exact h.typed txn htxn
    · rw [List.mem_singleton.1 htxn]
      exact p.manager.nextTxn.isLt
  · rw [← h.commits]
    simp [accepted, call, TxnOutcome.commit?]
  · intro o ho s hs
    rcases List.mem_append.1 ho with ho | ho
    · exact (h.snapshots o ho s hs).trans hle
    · rw [List.mem_singleton.1 ho] at hs
      cases hs
      exact le_rfl

theorem Sound.write (h : p.Sound old log extra outcomes) (i : ℕ) (key : BusinessKey) :
    (p.call (.write i key)).1.Sound old log extra (outcomes ++ (p.call (.write i key)).2) := by
  have houtcomes : outcomes ++ (p.call (.write i key)).2 = outcomes := List.append_nil _
  rw [houtcomes]
  refine { h with typed := ?_ }
  intro txn htxn
  obtain ⟨txn', htxn', rfl | rfl⟩ := WalLog.mem_modify htxn
  · exact h.typed txn htxn'
  · have := h.typed txn' htxn'
    rw [Transaction.write]
    split_ifs
    · exact this
    · exact this

/-- The record of a commit goes on with the chain. -/
theorem Sound.follows_record (h : p.Sound old log extra outcomes) (hextra : extra = [])
    {txn : Transaction} (htxn : txn ∈ p.outstanding) {now : SystemTimeMicros}
    (hts : p.manager.commitTs now < systemTimeOpen) :
    Follows {} (old ++ log ++ [p.manager.record txn now]) := by
  subst hextra
  have hfollows := h.follows
  rw [List.append_nil] at hfollows
  have hlt := TxnManager.cursor_lt_commitTs hts
  refine follows_append.2 ⟨hfollows, follows_singleton.2 ⟨h.head, h.seq, h.cursor.trans_lt hlt, hts,
    h.typed txn htxn, ?_, hts.le⟩⟩
  have hmin : i64Min ≤ 0 := by decide
  exact hmin.trans (h.cursor_pos.trans hlt.le)

theorem Sound.commit (h : p.Sound old log extra outcomes) (i : ℕ) (now : SystemTimeMicros)
    (io : CommitIo) :
    ∃ log' extra', (p.call (.commit i now io)).1.Sound old log' extra'
      (outcomes ++ (p.call (.commit i now io)).2) := by
  rw [call]
  cases hget : p.outstanding[i]? with
  | none => exact ⟨log, extra, by rw [List.append_nil]; exact h⟩
  | some txn =>
    have htxn : txn ∈ p.outstanding := List.mem_of_getElem? hget
    have htyped : ∀ t ∈ p.outstanding.eraseIdx i, t.txnId < 2 ^ 64 := fun t ht =>
      h.typed t (List.mem_of_mem_eraseIdx ht)
    have hconflicts := conflicts_iff h.indexes txn
    have hcases := p.manager.commit_cases txn now io
    simp only
    generalize (p.manager.commit txn now io).1 = m' at hcases ⊢
    generalize (p.manager.commit txn now io).2 = r at hcases ⊢
    -- what is the same of every refusal
    have hrefused : ∀ e, (e = .conflict ↔ p.manager.conflicts txn = true) →
        Isolated (outcomes ++ [.refused txn e]) := by
      intro e he
      refine h.isolated.concat (fun c hc => nomatch hc) fun txn' htxn' => ?_
      cases htxn'
      rw [← hconflicts, ← he]
      exact ⟨fun heq => by cases heq; rfl, fun heq => by rw [heq]⟩
    have hcommits : ∀ e, accepted (outcomes ++ [.refused txn e]) =
        log.map ChainRecord.committed := by
      intro e
      rw [← h.commits]
      simp [accepted, TxnOutcome.commit?]
    have hsnapshots : ∀ o' : TxnOutcome, o'.snapshot? = none → ∀ o ∈ outcomes ++ [o'],
        ∀ s ∈ o.snapshot?, s ≤ p.manager.cursor := by
      intro o' ho' o ho s hs
      rcases List.mem_append.1 ho with ho | ho
      · exact h.snapshots o ho s hs
      · rw [List.mem_singleton.1 ho, ho'] at hs
        cases hs
    cases hcases with
    | conflict hc =>
      exact ⟨log, extra, { h with
        typed := htyped
        commits := hcommits _
        snapshots := hsnapshots _ rfl
        indexes := h.indexes.pass rfl
        isolated := hrefused _ (iff_of_true rfl hc) }⟩
    | exhausted hc =>
      exact ⟨log, extra, { h with
        typed := htyped
        commits := hcommits _
        snapshots := hsnapshots _ rfl
        indexes := h.indexes.pass rfl
        isolated := hrefused _ (by simp [hc]) }⟩
    | @unlogged wal e hc hext hp =>
      obtain ⟨placed, hplaced, hrecords, hdurable⟩ := h.placed
      obtain ⟨hplaced', hmono⟩ := hext placed hplaced
      rw [List.append_nil] at hplaced'
      exact ⟨log, extra, { h with
        placed := ⟨placed, hplaced', hrecords, fun r hr => (hdurable r hr).trans hmono⟩
        running := fun hp' => h.running (by
          by_contra hne
          simp [hp (by simpa using hne)] at hp')
        typed := htyped
        commits := hcommits _
        snapshots := hsnapshots _ rfl
        indexes := h.indexes.pass rfl
        isolated := hrefused _ (by simp [hc]) }⟩
    | @undecided wal e target hc hts hp hext hp' =>
      have hextra := h.running hp
      have hfollows := h.follows_record hextra htxn hts
      subst hextra
      obtain ⟨placed, hplaced, hrecords, hdurable⟩ := h.placed
      obtain ⟨hplaced', hmono⟩ := hext placed hplaced
      have hlen : placed.length = (old ++ log).length := by
        rw [List.append_nil] at hrecords
        simpa using congrArg List.length hrecords
      refine ⟨log, [p.manager.record txn now], { h with
        placed := ⟨_, hplaced', ?_, ?_⟩
        follows := hfollows
        running := fun hq => by rw [hp'] at hq; cases hq
        extra_le := le_rfl
        typed := htyped
        commits := hcommits _
        snapshots := hsnapshots _ rfl
        indexes := h.indexes.pass rfl
        isolated := hrefused _ (by simp [hc]) }⟩
      · rw [List.map_append, hrecords]
        simp
      · rw [← hlen, List.take_left]
        intro r hr
        exact (hdurable r (by rwa [← hlen, List.take_length])).trans hmono
    | @done wal target hc hts hp hext hsynced =>
      have hextra := h.running hp
      have hfollows := h.follows_record hextra htxn hts
      subst hextra
      have hlt := TxnManager.cursor_lt_commitTs hts
      obtain ⟨placed, hplaced, hrecords, -⟩ := h.placed
      obtain ⟨hplaced', -⟩ := hext placed hplaced
      have hchain : chainOf (old ++ (log ++ [p.manager.record txn now])) =
          (chainOf (old ++ log)).extend (p.manager.record txn now) := by
        rw [← List.append_assoc, chainOf_concat]
      have hindexes : Indexes (p.manager.publish txn now).writeIndex
          (outcomes ++ [.committed txn (p.manager.record txn now).committed]) := by
        refine h.indexes.publish txn (p.manager.record txn now).committed fun txn' c' hc' => ?_
        exact (h.commit_le hc').trans hlt.le
      refine ⟨log ++ [p.manager.record txn now], [],
        { placed := ⟨_, hplaced', ?_, ?_⟩
          follows := ?_
          running := fun _ => rfl
          extra_le := Nat.zero_le _
          head := ?_
          seq := ?_
          cursor := ?_
          cursor_pos := h.cursor_pos.trans hlt.le
          cursor_lt := hts
          typed := htyped
          commits := ?_
          snapshots := fun o ho s hs => (hsnapshots _ rfl o ho s hs).trans hlt.le
          indexes := hindexes
          isolated := ?_ }⟩
      · rw [List.map_append, hrecords]
        simp
      · intro r hr
        show r.2 ≤ wal.durableEnd
        rw [hsynced]
        exact hplaced'.le_stagedPos r (List.mem_of_mem_take hr)
      · rwa [List.append_nil, ← List.append_assoc]
      · rw [hchain]
        rfl
      · rw [hchain]
        show p.manager.nextSeq + 1 = _
        rfl
      · rw [hchain]
        exact le_rfl
      · rw [List.map_append, ← h.commits]
        simp [accepted, TxnOutcome.commit?, TxnOutcome.ofResult]
      · refine h.isolated.concat ?_ ?_
        · intro c hc' o ho s hs
          cases hc'
          exact (h.snapshots o ho s hs).trans_lt hlt
        · intro txn' htxn'
          cases htxn'
          rw [← hconflicts, hc]
          simp [TxnOutcome.ofResult]

/-- One call. -/
theorem Sound.call (h : p.Sound old log extra outcomes) (c : TxnCall) :
    ∃ log' extra', (p.call c).1.Sound old log' extra' (outcomes ++ (p.call c).2) := by
  cases c with
  | begin_ now => exact ⟨log, extra, h.begin_ now⟩
  | write i key => exact ⟨log, extra, h.write i key⟩
  | commit i now io => exact h.commit i now io

/-- Any number of calls. -/
theorem Sound.calls (h : p.Sound old log extra outcomes) (cs : List TxnCall) :
    ∃ log' extra', (p.calls cs).1.Sound old log' extra' (outcomes ++ (p.calls cs).2) := by
  induction cs generalizing p log extra outcomes with
  | nil => exact ⟨log, extra, by rw [show (p.calls []).2 = [] from rfl, List.append_nil]; exact h⟩
  | cons c cs ih =>
    obtain ⟨log₁, extra₁, h₁⟩ := h.call c
    obtain ⟨log₂, extra₂, h₂⟩ := ih h₁
    rw [List.append_assoc] at h₂
    exact ⟨log₂, extra₂, h₂⟩

end Process

/-! ### Between lives -/

/-- Opening the log does not change what is read. -/
theorem WalLog.replay_open (size : ℕ) (files : List WalLog.LogFile) :
    WalLog.replay (WalLog.Wal.open_ size files).files = WalLog.replay files := by
  by_cases hnil : files = []
  · subst hnil
    rfl
  · have hbytes : (WalLog.Wal.open_ size files).files.map WalLog.LogFile.bytes =
        files.map WalLog.LogFile.bytes := by
      simp [WalLog.Wal.open_, if_neg hnil, List.map_map, Function.comp_def]
    rw [WalLog.replay, hbytes, WalLog.replay]

/-- What is read of a log that runs. -/
theorem WalLog.Wal.Placed.replay {w : WalLog.Wal} {placed : List (Bytes × WalLog.LogPos)}
    (h : w.Placed placed) : (WalLog.replay w.files).1 = placed.map Prod.fst := by
  obtain ⟨closed, recent, fs, cur, debris, h, rfl⟩ := h
  rw [WalLog.map_fst_layout, List.flatten_append, List.flatten_singleton]
  obtain hfiles | ⟨-, rfl, -, hfiles⟩ := h.files
  · have hbytes : w.files.map WalLog.LogFile.bytes =
        closed.map WalLog.frames ++ [WalLog.frames recent ++ debris] := by
      rw [hfiles, List.map_append, h.older, List.map_singleton, h.bytes]
    rw [WalLog.replay, hbytes, WalLog.replayFrom_frames h.readable h.torn]
  · -- the file that was not fenced is empty
    have hbytes : w.files.map WalLog.LogFile.bytes =
        (closed ++ [recent]).map WalLog.frames ++ [WalLog.frames [] ++ []] := by
      rw [hfiles, List.map_append, h.older, List.map_append]
      simp [h.bytes]
    have hreadable : ∀ rs ∈ closed ++ [recent] ++ [[]], ∀ p ∈ rs, p.length ≤ maxPayloadLen := by
      intro rs hrs p hp
      rcases List.mem_append.1 hrs with hrs | hrs
      · exact h.readable rs hrs p hp
      · rw [List.mem_singleton.1 hrs] at hp
        cases hp
    rw [WalLog.replay, hbytes, WalLog.replayFrom_frames hreadable (.inl rfl), List.append_nil,
      List.flatten_append, List.flatten_singleton]

/-- The records of a chain are read; the log verifies unless it ends in part of a record. -/
theorem TxnManager.verifyLog_of_follows {files : List WalLog.LogFile} {records : List ChainRecord}
    (h : (WalLog.replay files).1 = records.map ChainRecord.encode) (hf : Follows {} records) :
    verifyLog files = match (WalLog.replay files).2 with
      | none => .ok (chainOf records)
      | some _ => .error (.replay (chainOf records).len) := by
  have hverify : verifyChainRecover (WalLog.replay files).1 = .ok (chainOf records) := by
    rw [h]
    exact verifyFrom_of_follows hf
  simp only [verifyLog, hverify]
  cases (WalLog.replay files).2 <;> rfl

/-- The records on a disk after a crash. -/
def Rests (files : List WalLog.LogFile) (records : List ChainRecord) : Prop :=
  files = [] ∧ records = [] ∨ ∃ closed recent debris, WalLog.Resting files closed recent debris ∧
    closed.flatten ++ recent = records.map ChainRecord.encode

theorem Rests.replay {files : List WalLog.LogFile} {records : List ChainRecord}
    (h : Rests files records) : (WalLog.replay files).1 = records.map ChainRecord.encode := by
  obtain ⟨rfl, rfl⟩ | ⟨closed, recent, debris, hrest, hrecords⟩ := h
  · rfl
  · rw [hrest.replay, hrecords]

theorem checkedSucc_eq_some {n : U64} {k : U64} (h : TxnManager.checkedSucc n.val = some k) :
    k = n + 1 := by
  rw [TxnManager.checkedSucc] at h
  split_ifs at h with hlt
  cases h
  refine Fin.ext ?_
  rw [Fin.val_add]
  exact (Nat.mod_eq_of_lt hlt).symm

/-- **A start** takes over the records that are there. -/
theorem Process.sound_start {files : List WalLog.LogFile} {records : List ChainRecord} {size : ℕ}
    {p : Process} (h : Rests files records) (hf : Follows {} records)
    (hstart : Process.start size files = .ok p) : p.Sound records [] [] [] := by
  have hreplay := WalLog.replay_open size files
  have hverify := TxnManager.verifyLog_of_follows ((congrArg Prod.fst hreplay).trans h.replay) hf
  rw [hreplay] at hverify
  -- what is there is whole, or the start fails
  have hwhole : (WalLog.replay files).2 = none := by
    cases hcorrupt : (WalLog.replay files).2 with
    | none => rfl
    | some position =>
      rw [hcorrupt] at hverify
      simp only [Process.start, TxnManager.recover, hverify] at hstart
      cases hstart
  rw [hwhole] at hverify
  obtain ⟨nextTxn, nextSeq, hseq, rfl⟩ : ∃ nextTxn nextSeq, nextSeq = (chainOf records).seq + 1 ∧
      p = { manager := { cursor := (chainOf records).commitTs, nextTxn, nextSeq,
                         commitHead := (chainOf records).head, wal := .open_ size files } } := by
    simp only [Process.start, TxnManager.recover, hverify] at hstart
    cases htxn : TxnManager.checkedSucc (chainOf records).maxTxnId with
    | none =>
      rw [htxn] at hstart
      cases hstart
    | some nextTxn =>
      cases hseq : TxnManager.checkedSucc (chainOf records).seq.val with
      | none =>
        simp only [htxn, hseq] at hstart
        cases hstart
      | some nextSeq =>
        simp only [htxn, hseq] at hstart
        cases hstart
        exact ⟨nextTxn, nextSeq, checkedSucc_eq_some hseq, rfl⟩
  obtain ⟨placed, hplaced, hfst, hdurable⟩ : ∃ placed, (WalLog.Wal.open_ size files).Placed placed ∧
      placed.map Prod.fst = records.map ChainRecord.encode ∧
      ∀ r ∈ placed, r.2 ≤ (WalLog.Wal.open_ size files).durableEnd := by
    obtain ⟨rfl, rfl⟩ | ⟨closed, recent, debris, hrest, hrecords⟩ := h
    · exact ⟨[], (WalLog.Wal.placed_open_nil size).1, rfl, fun r hr => nomatch hr⟩
    · have hdebris : debris = [] := by
        by_contra hne
        rw [hrest.replay, if_neg hne] at hwhole
        cases hwhole
      subst hdebris
      obtain ⟨hopen, hend⟩ := WalLog.Wal.placed_open hrest size
      refine ⟨_, hopen, ?_, ?_⟩
      · rw [WalLog.map_fst_layout, List.flatten_append, List.flatten_singleton, hrecords]
      · intro r hr
        rw [hend]
        exact WalLog.layout_le hr
  have hopen : (0 : ℤ) < systemTimeOpen := by decide
  exact
    { placed := ⟨placed, hplaced, by simpa using hfst, fun r hr =>
        hdurable r (List.mem_of_mem_take hr)⟩
      follows := by simpa using hf
      running := fun _ => rfl
      extra_le := Nat.zero_le _
      head := by simp
      seq := by simpa using hseq
      cursor := by simp
      cursor_pos := hf.le_commitTs.1
      cursor_lt := (hf.lt_open hopen).2
      typed := fun txn htxn => nomatch htxn
      commits := rfl
      snapshots := fun o ho => nomatch ho
      indexes := fun key => ⟨fun writtenAt hget => by simp at hget, fun txn c hc => nomatch hc⟩
      isolated := ⟨.nil, fun before o after txn heq => by simp at heq⟩ }

/-- **A crash** keeps every record that was accepted. -/
theorem Process.Sound.crash {p : Process} {old log extra : List ChainRecord}
    {outcomes : List TxnOutcome} (h : p.Sound old log extra outcomes) (keep : ℕ → ℕ) (lose : Bool) :
    ∃ kept, kept <+: extra ∧
      Rests (WalLog.crashFiles p.manager.wal.files keep lose) (old ++ log ++ kept) := by
  obtain ⟨placed, hplaced, hfst, hdurable⟩ := h.placed
  obtain ⟨closed, recent, debris, lost, hrest, hsplit, hlost, -⟩ := hplaced.crash keep lose
  have hflat : closed.flatten ++ recent =
      (WalLog.layout 0 (closed ++ [recent])).map Prod.fst := by
    rw [WalLog.map_fst_layout, List.flatten_append, List.flatten_singleton]
  generalize WalLog.layout 0 (closed ++ [recent]) = there at hsplit hflat
  have hlen : placed.length = (old ++ log).length + extra.length := by
    have := congrArg List.length hfst
    rwa [List.length_map, List.length_map, List.length_append] at this
  -- what is lost was not accepted
  have hle : (old ++ log).length ≤ there.length := by
    by_contra hlt
    rw [not_le] at hlt
    rcases lost with _ | ⟨r, lost⟩
    · rw [hsplit, List.append_nil] at hlen
      omega
    · refine hlost r List.mem_cons_self (hdurable r ?_)
      rw [hsplit, List.take_append, List.mem_append]
      right
      obtain ⟨k, hk⟩ := Nat.exists_eq_add_of_lt hlt
      rw [show (old ++ log).length - there.length = k + 1 by omega]
      exact List.mem_cons_self
  have hthere : there.map Prod.fst =
      (old ++ log ++ extra.take (there.length - (old ++ log).length)).map ChainRecord.encode := by
    have htake : there = placed.take there.length := by rw [hsplit, List.take_left]
    rw [htake, List.map_take, hfst, ← List.map_take, List.take_append,
      List.take_of_length_le hle, List.length_take, hsplit]
    congr 3
    simp
  refine ⟨extra.take (there.length - (old ++ log).length), List.take_prefix _ _,
    .inr ⟨closed, recent, debris, hrest, ?_⟩⟩
  rw [hflat, hthere]

/-- What holds of a disk that processes have left: it has the records, the commits of all outcomes
among them. -/
structure Keeps (files : List WalLog.LogFile) (records : List ChainRecord)
    (outcomes : List TxnOutcome) (n : ℕ) : Prop where
  rests : Rests files records
  follows : Follows {} records
  commits : (accepted outcomes).Sublist (records.map ChainRecord.committed)
  length_le : records.length ≤ (accepted outcomes).length + n

/-- The commits of a life are numbered consecutively. -/
def Consecutive (outcomes : List TxnOutcome) : Prop :=
  (accepted outcomes).IsChain fun c c' => c'.seq = c.seq + 1

theorem Process.Sound.consecutive {p : Process} {old log extra : List ChainRecord}
    {outcomes : List TxnOutcome} (h : p.Sound old log extra outcomes) : Consecutive outcomes := by
  have hlog : Follows (chainOf old) log :=
    (follows_append.1 (follows_append.1 h.follows).1).2
  rw [Consecutive, h.commits, List.isChain_map]
  exact hlog.isChain_seq

/-- The records of a log, of which the last was perhaps not accepted. -/
theorem Process.Sound.keeps {p : Process} {old log extra kept : List ChainRecord}
    {past outcomes : List TxnOutcome} {files : List WalLog.LogFile} {n : ℕ}
    (h : p.Sound old log extra outcomes) (hpast : Keeps files old past n) (hkept : kept <+: extra) :
    Follows {} (old ++ log ++ kept) ∧
      (accepted (past ++ outcomes)).Sublist ((old ++ log ++ kept).map ChainRecord.committed) ∧
      (old ++ log ++ kept).length ≤ (accepted (past ++ outcomes)).length + (n + 1) := by
  have hcommits : accepted (past ++ outcomes) = accepted past ++ log.map ChainRecord.committed := by
    rw [accepted, List.filterMap_append, ← h.commits]
    rfl
  have hlen := hpast.length_le
  have hextra := h.extra_le
  have hkept' := hkept.length_le
  obtain ⟨rest, rfl⟩ := hkept
  refine ⟨?_, ?_, ?_⟩
  · have hfollows := h.follows
    rw [← List.append_assoc] at hfollows
    exact (follows_append.1 hfollows).1
  · rw [hcommits, List.map_append, List.map_append]
    exact ((hpast.commits.append (.refl _)).trans (List.sublist_append_left _ _))
  · rw [hcommits]
    simp only [List.length_append, List.length_map] at *
    omega

/-- One more life. -/
theorem Keeps.life {files : List WalLog.LogFile} {records : List ChainRecord}
    {past : List TxnOutcome} {n size : ℕ} (h : Keeps files records past n) {p : Process}
    (hstart : Process.start size files = .ok p) (cs : List TxnCall) (keep : ℕ → ℕ) (lose : Bool) :
    Isolated (p.calls cs).2 ∧ Consecutive (p.calls cs).2 ∧
      ∃ records', Keeps (WalLog.crashFiles (p.calls cs).1.manager.wal.files keep lose) records'
        (past ++ (p.calls cs).2) (n + 1) := by
  obtain ⟨log, extra, hs⟩ := (Process.sound_start h.rests h.follows hstart).calls cs
  rw [List.nil_append] at hs
  obtain ⟨kept, hkept, hrests⟩ := hs.crash keep lose
  obtain ⟨hfollows, hcommits, hlen⟩ := hs.keeps h hkept
  exact ⟨hs.isolated, hs.consecutive, _, hrests, hfollows, hcommits, hlen⟩

/-- Any number of lives. -/
theorem Keeps.lives {files files' : List WalLog.LogFile} {records : List ChainRecord}
    {past : List TxnOutcome} {n : ℕ} {ls : List TxnLife} {history : List (List TxnOutcome)}
    (h : Keeps files records past n) (hl : TxnManager.lives files ls = .ok (files', history)) :
    (∀ life ∈ history, Isolated life ∧ Consecutive life) ∧
      ∃ records', Keeps files' records' (past ++ history.flatten) (n + history.length) := by
  induction ls generalizing files records past n history with
  | nil =>
    cases hl
    refine ⟨fun life hlife => (nomatch hlife), records, ?_⟩
    simpa using h
  | cons l ls ih =>
    rw [TxnManager.lives] at hl
    cases hstart : Process.start l.segmentSizeBytes files with
    | error e =>
      rw [hstart] at hl
      cases hl
    | ok p =>
      obtain ⟨hiso, hcons, records₁, h₁⟩ := h.life hstart l.calls l.keep l.lose
      simp only [hstart] at hl
      cases hrest : TxnManager.lives
          (WalLog.crashFiles (p.calls l.calls).1.manager.wal.files l.keep l.lose) ls with
      | error e =>
        rw [hrest] at hl
        cases hl
      | ok r =>
        rw [hrest] at hl
        cases hl
        obtain ⟨hall, records₂, h₂⟩ := ih h₁ hrest
        refine ⟨?_, records₂, ?_⟩
        · intro life hlife
          rcases List.mem_cons.1 hlife with rfl | hlife
          · exact ⟨hiso, hcons⟩
          · exact hall life hlife
        · rw [List.flatten_cons, List.length_cons, ← List.append_assoc, Nat.add_comm r.2.length,
            ← Nat.add_assoc]
          exact h₂

namespace TxnManager

/-- **Snapshot isolation over any number of lives.** -/
theorem snapshot_isolation {past : List TxnLife} {files : List WalLog.LogFile}
    {history : List (List TxnOutcome)} {size : ℕ} {p : Process} (cs : List TxnCall)
    (hpast : lives [] past = .ok (files, history)) (hstart : Process.start size files = .ok p) :
    let m := (p.calls cs).1.manager
    let all := history ++ [(p.calls cs).2]
    let commits := accepted all.flatten
    (commits.Pairwise fun c c' => c.commitTs < c'.commitTs) ∧
    (∀ c ∈ commits, c.commitTs < systemTimeOpen) ∧
    (∀ life ∈ all,
      (life.Pairwise fun o o' => ∀ s ∈ o.snapshot?, ∀ c ∈ o'.commit?, s < c.commitTs) ∧
      (∀ before o after txn, life = before ++ o :: after → o.asked? = some txn →
        (o = .refused txn .conflict ↔ ConflictsWith before txn)) ∧
      (accepted life).IsChain fun c c' => c'.seq = c.seq + 1) ∧
    (∀ txn now io e, (m.commit txn now io).2 = .error e →
      (m.commit txn now io).1 = { m with wal := (m.commit txn now io).1.wal }) ∧
    ∀ files',
      (files' = m.wal.files ∨ ∃ keep lose, files' = WalLog.crashFiles m.wal.files keep lose) →
      ∃ records : List ChainRecord,
        (WalLog.replay files').1 = records.map ChainRecord.encode ∧
        commits.Sublist (records.map ChainRecord.committed) ∧
        records.length ≤ commits.length + all.length ∧
        (∀ i r, records[i]? = some r → r.seq.val = (i + 1) % 2 ^ 64) ∧
        ((∃ c, verifyLog files' = .ok c) ↔ (WalLog.replay files').2 = none) := by
  intro m all commits
  have hempty : Keeps [] [] [] 0 := ⟨.inl ⟨rfl, rfl⟩, trivial, .slnil, le_rfl⟩
  obtain ⟨hold, old, hkeeps⟩ := hempty.lives hpast
  rw [List.nil_append, Nat.zero_add] at hkeeps
  obtain ⟨log, extra, hs⟩ := (Process.sound_start hkeeps.rests hkeeps.follows hstart).calls cs
  rw [List.nil_append] at hs
  have hall : all.flatten = history.flatten ++ (p.calls cs).2 := by
    rw [List.flatten_append, List.flatten_singleton]
  obtain ⟨hfollows, hsub, hlen⟩ := hs.keeps hkeeps List.prefix_rfl
  rw [← hall] at hsub hlen
  have hopen : (0 : ℤ) < systemTimeOpen := by decide
  refine ⟨?_, ?_, ?_, ?_, ?_⟩
  · refine List.Pairwise.sublist hsub (List.pairwise_map.2 ?_)
    exact hfollows.rising.2
  · intro c hc
    obtain ⟨r, hr, rfl⟩ := List.mem_map.1 (hsub.subset hc)
    exact (hfollows.lt_open hopen).1 r hr
  · intro life hlife
    have hlife' : Isolated life ∧ Consecutive life := by
      rcases List.mem_append.1 hlife with hlife | hlife
      · exact hold life hlife
      · rw [List.mem_singleton.1 hlife]
        exact ⟨hs.isolated, hs.consecutive⟩
    exact ⟨hlife'.1.times, hlife'.1.conflicts, hlife'.2⟩
  · intro txn now io e he
    have hcases := m.commit_cases txn now io
    rw [he] at hcases
    exact commit_error hcases
  · intro files' hfiles'
    obtain ⟨kept, hkept, hreplay⟩ : ∃ kept, kept <+: extra ∧
        (WalLog.replay files').1 = (old ++ log ++ kept).map ChainRecord.encode := by
      obtain rfl | ⟨keep, lose, rfl⟩ := hfiles'
      · obtain ⟨placed, hplaced, hfst, -⟩ := hs.placed
        exact ⟨extra, List.prefix_rfl, hplaced.replay.trans hfst⟩
      · obtain ⟨kept, hkept, hrests⟩ := hs.crash keep lose
        exact ⟨kept, hkept, hrests.replay⟩
    obtain ⟨hfollows', hsub', hlen'⟩ := hs.keeps hkeeps hkept
    rw [← hall] at hsub' hlen'
    refine ⟨old ++ log ++ kept, hreplay, hsub', ?_, ?_, ?_⟩
    · have hcount : all.length = history.length + 1 := List.length_append
      rw [hcount]
      exact hlen'
    · intro i r hi
      rw [hfollows'.seq_val hi, show (({} : RecoveredChain).seq).val = 0 from rfl, Nat.zero_add]
    · rw [verifyLog_of_follows hreplay hfollows']
      cases (WalLog.replay files').2 <;> simp

/-- Two transactions write the same key; the first to commit wins. -/
theorem snapshot_isolation_sample :
    let txn : Transaction := ⟨2, 10, [[107]]⟩
    ∃ p, Process.start 1024 [] = .ok p ∧
      ∃ before after, (p.calls [.begin_ 10, .begin_ 10, .write 0 [107], .write 1 [107],
        .commit 0 10 {}, .commit 0 10 {}]).2 = before ++ .refused txn .conflict :: after ∧
      ConflictsWith before txn := by
  intro txn
  have hpast : lives [] [] = .ok ([], []) := rfl
  obtain ⟨p, hstart⟩ : ∃ p, Process.start 1024 [] = .ok p := ⟨_, rfl⟩
  have hlife := (snapshot_isolation [.begin_ 10, .begin_ 10, .write 0 [107], .write 1 [107],
    .commit 0 10 {}, .commit 0 10 {}] hpast hstart).2.2.1 _ (List.mem_singleton.2 rfl)
  have hsplit : (p.calls [.begin_ 10, .begin_ 10, .write 0 [107], .write 1 [107],
      .commit 0 10 {}, .commit 0 10 {}]).2 = [.began ⟨1, 10, []⟩, .began ⟨2, 10, []⟩,
        .committed ⟨1, 10, [[107]]⟩ ⟨1, 11, 1⟩] ++ .refused txn .conflict :: [] := by
    cases hstart
    decide
  exact ⟨p, hstart, _, _, hsplit, (hlife.2.1 _ _ _ txn hsplit rfl).1 rfl⟩

/-- A life that makes the calls, and of whose log a crash keeps every byte. -/
def lifeOf (calls : List TxnCall) : TxnLife := ⟨64 * 1024 * 1024, calls, fun _ => 2 ^ 32, true⟩

/-- **Across a restart** the snapshots are forgotten: a transaction reads at 100, and after a
restart with the clock at 50 another commits at 51.  A record of which the fsync failed keeps its
number: the commits that were accepted have the numbers 1 and 3.  A record of which part was written
keeps the manager from starting. -/
theorem restart_forgets_snapshot :
    (lives [] [lifeOf [.begin_ 100], lifeOf [.begin_ 50, .commit 0 50 {}]]).toOption.map Prod.snd =
        some [[.began ⟨1, 100, []⟩],
          [.began ⟨1, 50, []⟩, .committed ⟨1, 50, []⟩ ⟨1, 51, 1⟩]] ∧
      (lives [] [lifeOf [.begin_ 10, .commit 0 10 {}, .begin_ 20, .commit 0 20 { fsync := false }],
          lifeOf [.begin_ 30, .commit 0 30 {}]]).toOption.map
            (fun r => accepted r.2.flatten) = some [⟨1, 11, 1⟩, ⟨3, 31, 3⟩] ∧
      (lives [] [lifeOf [.begin_ 10, .commit 0 10 { write := .torn 8 }],
          lifeOf []]).toOption.isNone := by
  decide +kernel

end TxnManager

end SteleDb
