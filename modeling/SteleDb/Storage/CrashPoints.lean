import SteleDb.Storage.DiskOps

/-!
# Crashes inside flush and compaction

What has to hold at every step of a checkpoint, a flush and a compaction so that a crash there does
no harm: whatever record of the manifest recovery may load, the segments it names are on disk to
stay and hold the table as it was after the records of the log before the floor, and no record of
the log stands behind a torn frame past it.

* `Host.Safe.holds` : then what a crash leaves holds the table;
* `Host.guarded_sealOps`, `Host.guarded_storeOps`, `Host.guarded_removeSegments` : writing a
  segment, storing a record and retiring segments keep this at every step;
* `Host.guarded_ops` : so does a call, if it does no harm to what recovery may look for
  (`Host.Clear`).
-/

namespace SteleDb

open Timeline Engine

/-! ### The log as a chain of histories -/

/-- `Hs n` is what the table holds after the first `n` records of the log. -/
structure Chained (rs : List WalRecord) (Hs : ℕ → History) : Prop where
  start : Hs 0 = History.empty
  step : ∀ n r, rs[n]? = some r → Writes (Hs n) r.redos (Hs (n + 1))

namespace Chained

variable {rs : List WalRecord} {Hs : ℕ → History}

theorem writes (h : Chained rs Hs) {m n : ℕ} (hmn : m ≤ n) (hn : n ≤ rs.length) :
    Writes (Hs m) (((rs.take n).drop m).flatMap WalRecord.redos) (Hs n) := by
  induction n, hmn using Nat.le_induction with
  | base =>
    rw [List.drop_eq_nil_of_le (List.length_take_le _ _)]
    exact .nil _
  | succ n hmn ih =>
    have hlt : n < rs.length := hn
    have hm : m ≤ (rs.take n).length := by rw [List.length_take]; omega
    rw [← List.take_concat_get' rs n hlt, List.drop_append_of_le_length hm, List.flatMap_append,
      List.flatMap_singleton]
    exact (ih hlt.le).trans (h.step n _ (List.getElem?_eq_getElem hlt))

theorem writes_empty (h : Chained rs Hs) {n : ℕ} (hn : n ≤ rs.length) :
    Writes History.empty ((rs.take n).flatMap WalRecord.redos) (Hs n) := by
  have := h.writes (Nat.zero_le n) hn
  rwa [List.drop_zero, h.start] at this

theorem wellFormed (h : Chained rs Hs) {n : ℕ} (hn : n ≤ rs.length) : (Hs n).WellFormed :=
  (h.writes_empty hn).wellFormed History.wellFormed_empty

theorem closesFit (h : Chained rs Hs) {n : ℕ} (hn : n ≤ rs.length) : (Hs n).ClosesFit :=
  (h.writes_empty hn).closesFit History.wellFormed_empty (by rintro c ⟨k, p, hp, -⟩; cases hp)

/-- What holds of a log holds of the part of it that a crash leaves. -/
theorem take (h : Chained rs Hs) (n : ℕ) : Chained (rs.take n) Hs where
  start := h.start
  step := fun m r hr => h.step m r (by
    rw [List.getElem?_take] at hr
    split at hr
    · exact hr
    · cases hr)

end Chained

/-! ### What recovery may load -/

/-- The step changes the file of segment `i`. -/
def DiskOp.Touches (i : ℕ) : DiskOp → Prop
  | .removeSegment j => j = i
  | .createSegment j => j = i
  | .writeSegment j _ => j = i
  | .syncSegment j => j = i
  | _ => False

/-- The step updates the engine's memory. -/
def DiskOp.Adopts : DiskOp → Prop
  | .adoptFlush => True
  | .adoptMerge _ => True
  | _ => False

/-- The step neither makes the manifest nor stores a record in it. -/
def DiskOp.Quiet : DiskOp → Prop
  | .appendManifest _ => False
  | .createManifest => False
  | .fenceManifest => False
  | _ => True

theorem DiskOp.Quiet.not_new {op : DiskOp} (h : op.Quiet) :
    ¬ (op = .createManifest ∨ op = .fenceManifest) := by
  rintro (rfl | rfl) <;> exact h

namespace Host

/-- The log. -/
def log (h : Host) : List WalRecord := h.engine.writer.wal.records

/-- What recovery may find in the manifest after a crash; as long as the file may be gone, that is
nothing, too. -/
def mayLoad (h : Host) : List RecoveryPoint :=
  (if h.manifestFenced then [] else [Manifest.point []]) ++
    ((List.range (h.engine.manifest.length + 1)).filter (h.manifestSynced ≤ ·)).map
      fun n => Manifest.point (h.engine.manifest.take n)

/-- Recovery may look for segment `i` after a crash. -/
def Named (h : Host) (i : ℕ) : Prop := ∃ q ∈ h.mayLoad, i ∈ q.liveSegments

instance (h : Host) (i : ℕ) : Decidable (h.Named i) :=
  inferInstanceAs (Decidable (∃ q ∈ h.mayLoad, i ∈ q.liveSegments))

variable {h : Host} {Hs : ℕ → History} {q : RecoveryPoint} {floor : ℕ} {segs : List ℕ}

theorem mem_mayLoad : q ∈ h.mayLoad ↔ (h.manifestFenced = false ∧ q = Manifest.point []) ∨
    ∃ n, h.manifestSynced ≤ n ∧ n ≤ h.engine.manifest.length ∧
      q = Manifest.point (h.engine.manifest.take n) := by
  rw [mayLoad, List.mem_append]
  refine or_congr ?_ ?_
  · cases h.manifestFenced <;> simp
  · simp only [List.mem_map, List.mem_filter, List.mem_range, decide_eq_true_eq, Nat.lt_succ_iff]
    refine exists_congr fun n => ?_
    rw [and_comm (a := n ≤ _), and_assoc]
    exact and_congr_right fun _ => and_congr_right fun _ => eq_comm

/-- The segments `segs` are on disk to stay, and hold the table as it was after `floor` records of
the log, which are on disk to stay too. -/
structure Vouched (h : Host) (Hs : ℕ → History) (floor : ℕ) (segs : List ℕ) : Prop where
  durable : floor ≤ h.engine.writer.wal.durableEnd
  sorted : segs.Pairwise (· < ·)
  read : ∃ s, readSegments h.engine.segments segs = some s ∧
    (∀ v, v ∈ s.versions ↔ (Hs floor).Asserts v) ∧ ∀ c, c ∈ s.retractions ↔ (Hs floor).Retracts c
  kept : ∀ i ∈ segs, i ∉ h.unsynced ∧ i ∉ h.unfenced

/-- A recovery point does no harm: its segments are vouched for, the log up to its fence is on disk
to stay, and recovery loses nothing of the log. -/
structure Loadable (h : Host) (Hs : ℕ → History) (q : RecoveryPoint) : Prop where
  vouched : h.Vouched Hs q.replayFloor q.liveSegments
  fenced : q.durableFence ≤ h.engine.writer.wal.durableEnd
  legible : Legible h.log q

/-- Whatever recovery may find in the manifest after a crash does no harm. -/
structure Safe (h : Host) (Hs : ℕ → History) : Prop where
  chained : Chained h.log Hs
  bounded : h.engine.writer.wal.durableEnd ≤ h.log.length
  synced : h.manifestSynced ≤ h.engine.manifest.length
  fenced : h.manifestFenced = true → h.manifestMade = true
  loadable : ∀ q ∈ h.mayLoad, h.Loadable Hs q

theorem Safe.unfenced (hs : h.Safe Hs) (hmade : h.manifestMade = false) :
    h.manifestFenced = false := by
  cases hf : h.manifestFenced with
  | false => rfl
  | true => rw [hs.fenced hf] at hmade; cases hmade

theorem point_concat_none (m : Manifest) : Manifest.point (m ++ [none]) = m.point := by
  rw [Manifest.point, load_append_of_hidden ⟨none, by simp, rfl⟩, Manifest.point]

/-- The manifest a crash leaves loads as one of the points that recovery may find. -/
theorem Crash.point_mem {d : Disk} {made : Bool} (hc : h.Crash d made) :
    d.manifest.point ∈ h.mayLoad := by
  rw [mem_mayLoad]
  rcases hc.manifest with ⟨n, hn, -, ⟨hle, heq⟩ | ⟨hlt, heq⟩⟩ | ⟨hunfenced, heq⟩
  · exact .inr ⟨n, hn, hle, by rw [heq]⟩
  · exact .inr ⟨n, hn, hlt.le, by rw [heq, point_concat_none]⟩
  · exact .inl ⟨hunfenced, by rw [heq]⟩

/-- What a crash leaves of a safe host holds the table as it was after the records that are left. -/
theorem Safe.holds (hs : h.Safe Hs) {d : Disk} {made : Bool} (hc : h.Crash d made) :
    ∃ n, h.engine.writer.wal.durableEnd ≤ n ∧ n ≤ h.log.length ∧
      (d.log = h.log.take n ∨ d.log = h.log.take n ++ [WalRecord.torn]) ∧
        d.Holds (Hs d.manifest.point.replayFloor) (Hs n) := by
  obtain ⟨hv, hfence, hlegible⟩ := hs.loadable _ hc.point_mem
  obtain ⟨n, hdur, hn, hlog⟩ := hc.log
  have hfloor := hv.durable.trans hdur
  change d.log = h.log.take n ∨ d.log = h.log.take n ++ [.torn] at hlog
  have hlen : (h.log.take n).length = n := by rw [List.length_take]; exact Nat.min_eq_left hn
  obtain ⟨s, hread, hvers⟩ := hv.read
  have hwrites := hs.chained.writes hfloor hn
  refine ⟨n, hdur, hn, hlog, hs.chained.wellFormed (hfloor.trans hn),
    hs.chained.closesFit (hfloor.trans hn), ⟨s, ?_, hvers⟩, ?_, ?_, hv.sorted⟩
  · -- files that are on disk to stay are read as before the crash
    rw [← hread]
    exact readSegments_congr fun i hi => hc.segments i (hv.kept i hi).1 (hv.kept i hi).2
  · rcases hlog with hlog | hlog
    · rw [hlog]; exact hwrites
    · -- what is torn adds nothing
      rw [hlog, List.drop_append_of_le_length (by rw [hlen]; exact hfloor), List.flatMap_append,
        List.flatMap_singleton, WalRecord.redos_torn, List.append_nil]
      exact hwrites
  · exact hlegible.crashed (hfence.trans hdur) hn hlog

/-! ### One step -/

/-- The engine's memory is the same. -/
def Kin (h h' : Host) : Prop :=
  ∃ w m f x, h.engine.writer.wal.Extends [] w ∧ h'.engine = { h.engine with
    writer := { h.engine.writer with wal := w }, manifest := m, segments := f, fence := x }

theorem Kin.refl (h : Host) : h.Kin h := ⟨_, _, _, _, .refl _, rfl⟩

theorem Kin.trans {h' h'' : Host} (hk : h.Kin h') (hk' : h'.Kin h'') : h.Kin h'' := by
  obtain ⟨w, m, f, x, hext, he⟩ := hk
  obtain ⟨w', m', f', x', hext', he'⟩ := hk'
  rw [he] at hext' he'
  exact ⟨w', m', f', x', hext.trans hext', he'⟩

theorem Kin.log {h' : Host} (hk : h.Kin h') : h'.log = h.log := by
  obtain ⟨w, m, f, x, hext, he⟩ := hk
  rw [Host.log, he]
  exact hext.same

/-- The fsync of the log touches nothing but the log, and covers it when it succeeds. -/
theorem exec_syncLog (h : Host) (o : IoOutcome) : ∃ w, h.engine.writer.wal.Extends [] w ∧
    (h.exec .syncLog o).1 =
      { h with engine := { h.engine with writer := { h.engine.writer with wal := w } } } ∧
    ((h.exec .syncLog o).2 = true → w.durableEnd = w.records.length) := by
  rcases h.engine.writer.wal.tick_cases with ⟨w, err, ht, hext⟩ | ⟨w, ht, hext, hend⟩
  · refine ⟨w, hext, ?_, fun hok => ?_⟩
    · simp only [exec, Engine.tick, ht]
    · simp [exec, Engine.tick, ht] at hok
  · refine ⟨w, hext, ?_, fun _ => by rw [hend, hext.same]⟩
    simp only [exec, Engine.tick, ht]

theorem durableEnd_exec (hb : h.engine.writer.wal.durableEnd ≤ h.log.length) (op : DiskOp)
    (o : IoOutcome) :
    h.engine.writer.wal.durableEnd ≤ (h.exec op o).1.engine.writer.wal.durableEnd ∧
      (h.exec op o).1.engine.writer.wal.durableEnd ≤ (h.exec op o).1.log.length ∧
      (h.exec op o).1.log = h.log := by
  cases op with
  | syncLog =>
    obtain ⟨w, hext, heq, -⟩ := h.exec_syncLog o
    rw [heq]
    exact ⟨(hext.durable hb).1, (hext.durable hb).2, hext.same⟩
  | createSegment i =>
    simp only [exec]
    split_ifs <;> exact ⟨le_rfl, hb, rfl⟩
  | createManifest =>
    simp only [exec]
    split_ifs <;> exact ⟨le_rfl, hb, rfl⟩
  | _ => cases o <;> exact ⟨le_rfl, hb, rfl⟩

/-- A step leaves the files alone that it does not touch. -/
theorem files_exec (h : Host) {op : DiskOp} (o : IoOutcome) {i : ℕ} (hi : ¬ op.Touches i) :
    (h.exec op o).1.engine.segments[i]? = h.engine.segments[i]? ∧
      (i ∈ (h.exec op o).1.unsynced → i ∈ h.unsynced) ∧
      (i ∈ (h.exec op o).1.unfenced → i ∈ h.unfenced) := by
  -- a list that gains the file of another segment
  have hcons : ∀ {j : ℕ} {l : List ℕ}, ¬ j = i → i ∈ j :: l → i ∈ l := fun hne hmem =>
    (List.mem_cons.1 hmem).resolve_left (Ne.symm hne)
  cases op with
  | syncLog =>
    obtain ⟨w, -, heq, -⟩ := h.exec_syncLog o
    rw [heq]
    exact ⟨rfl, id, id⟩
  | removeSegment j =>
    cases o with
    | done => exact ⟨(OrdMap.getElem?_erase ..).trans (if_neg hi), id, hcons hi⟩
    | failed => exact ⟨rfl, id, id⟩
    | torn => exact ⟨rfl, id, id⟩
  | createSegment j =>
    simp only [exec]
    split_ifs
    · exact ⟨rfl, id, id⟩
    · exact ⟨rfl, hcons hi, hcons hi⟩
  | writeSegment j s =>
    cases o with
    | done => exact ⟨(OrdMap.getElem?_insert ..).trans (if_neg hi), hcons hi, id⟩
    | failed => exact ⟨(OrdMap.getElem?_erase ..).trans (if_neg hi), hcons hi, id⟩
    | torn => exact ⟨(OrdMap.getElem?_erase ..).trans (if_neg hi), hcons hi, id⟩
  | syncSegment j =>
    cases o with
    | done => exact ⟨rfl, List.mem_of_mem_filter, id⟩
    | failed => exact ⟨rfl, id, id⟩
    | torn => exact ⟨rfl, id, id⟩
  | createManifest =>
    simp only [exec]
    split_ifs <;> exact ⟨rfl, id, id⟩
  | syncDir => cases o <;> exact ⟨rfl, id, fun hmem => by first | exact hmem | cases hmem⟩
  | fenceManifest => cases o <;> exact ⟨rfl, id, fun hmem => by first | exact hmem | cases hmem⟩
  | _ => cases o <;> exact ⟨rfl, id, id⟩

/-- A record that is stored is what the manifest loads as, unless it is hidden. -/
theorem point_concat (m : Manifest) (p : RecoveryPoint) :
    Manifest.point (m ++ [some p]) = p ∨
      Manifest.point (m ++ [some p]) = m.point := by
  by_cases hall : ∀ r ∈ m ++ [some p], r.any RecoveryPoint.accepted = true
  · left
    have hp : p.accepted = true := hall (some p) (by simp)
    have hm : ∀ r ∈ m, r.any RecoveryPoint.accepted = true := fun r hr =>
      hall r (List.mem_append_left _ hr)
    rw [Manifest.point, Manifest.load_append hm hp]
    rfl
  · right
    push Not at hall
    obtain ⟨r, hr, hbad⟩ := hall
    rw [Manifest.point, load_append_of_hidden ⟨r, hr, by simpa using hbad⟩, Manifest.point]

/-- What recovery may find after a step it could find before, or the step has stored it.  A new
manifest file is not to take the place of one that is there to stay. -/
theorem mayLoad_exec (hsync : h.manifestSynced ≤ h.engine.manifest.length)
    (hfenced : h.manifestFenced = true → h.manifestMade = true) {op : DiskOp}
    (hnew : op = .createManifest ∨ op = .fenceManifest → h.manifestFenced = false)
    (o : IoOutcome) :
    (h.exec op o).1.manifestSynced ≤ (h.exec op o).1.engine.manifest.length ∧
      ∀ q ∈ (h.exec op o).1.mayLoad, q ∈ h.mayLoad ∨ op = .appendManifest q := by
  -- the file is new, and could have been gone before
  have hempty : h.manifestFenced = false → ∀ h' : Host, h'.engine.manifest = [] →
      ∀ q ∈ h'.mayLoad, q ∈ h.mayLoad := by
    intro hunfenced h' hnil q hq
    rw [mem_mayLoad, hnil] at hq
    rw [mem_mayLoad]
    rcases hq with ⟨-, hq⟩ | ⟨n, -, -, hq⟩
    · exact .inl ⟨hunfenced, hq⟩
    · exact .inl ⟨hunfenced, by rw [hq, List.take_nil]⟩
  -- the directory entry of the file is made durable
  have hfence : ∀ h' : Host, h'.engine.manifest = h.engine.manifest →
      h'.manifestSynced = h.manifestSynced →
        (h'.manifestFenced = false → h.manifestFenced = false) →
      ∀ q ∈ h'.mayLoad, q ∈ h.mayLoad := by
    intro h' hman hsynced hfenced q hq
    rw [mem_mayLoad, hman, hsynced] at hq
    exact mem_mayLoad.2 (hq.imp_left fun hq => ⟨hfenced hq.1, hq.2⟩)
  -- one more record, whole or torn
  have happ : ∀ r : Option RecoveryPoint, ∀ q ∈ Host.mayLoad { h with
      engine := { h.engine with manifest := h.engine.manifest ++ [r] } },
      q ∈ h.mayLoad ∨ q = Manifest.point (h.engine.manifest ++ [r]) := by
    intro r q hq
    rw [mem_mayLoad] at hq
    rcases hq with hq | ⟨n, hn, hle, hq⟩
    · exact .inl (mem_mayLoad.2 (.inl hq))
    · rcases Nat.lt_or_ge h.engine.manifest.length n with hlt | hge
      · refine .inr (hq.trans (congrArg Manifest.point (List.take_of_length_le ?_)))
        rw [List.length_append]
        exact hlt
      · refine .inl (mem_mayLoad.2 (.inr ⟨n, hn, hge, ?_⟩))
        rw [hq]
        exact congrArg Manifest.point (List.take_append_of_le_length hge)
  have hlen : ∀ r : Option RecoveryPoint, h.manifestSynced ≤ (h.engine.manifest ++ [r]).length :=
    fun r => hsync.trans (by rw [List.length_append]; exact Nat.le_add_right _ _)
  -- what the manifest loads as now
  have hall : h.engine.manifest.point ∈ h.mayLoad :=
    mem_mayLoad.2 (.inr ⟨_, hsync, le_rfl, by rw [List.take_length]⟩)
  cases op with
  | syncLog =>
    obtain ⟨w, -, heq, -⟩ := h.exec_syncLog o
    rw [heq]
    exact ⟨hsync, fun q hq => .inl hq⟩
  | createSegment j =>
    simp only [exec]
    split_ifs <;> exact ⟨hsync, fun q hq => .inl hq⟩
  | createManifest =>
    simp only [exec]
    split_ifs
    · exact ⟨hsync, fun q hq => .inl hq⟩
    · exact ⟨le_rfl, fun q hq => .inl (hempty (hnew (.inl rfl)) _ rfl q hq)⟩
  | fenceManifest =>
    cases o with
    | done =>
      exact ⟨hsync, fun q hq => .inl
        (hfence (h.exec .fenceManifest .done).1 rfl rfl (fun _ => hnew (.inr rfl)) q hq)⟩
    | failed => exact ⟨le_rfl, fun q hq => .inl (hempty (hnew (.inr rfl)) _ rfl q hq)⟩
    | torn => exact ⟨hsync, fun q hq => .inl hq⟩
  | syncDir =>
    cases o with
    | done =>
      refine ⟨hsync, fun q hq => .inl
        (hfence (h.exec .syncDir .done).1 rfl rfl (fun hunfenced => ?_) q hq)⟩
      -- only a file that was never made is not fenced by this
      have hmade : h.manifestMade = false := hunfenced
      cases hf : h.manifestFenced with
      | false => rfl
      | true => rw [hfenced hf] at hmade; cases hmade
    | failed => exact ⟨hsync, fun q hq => .inl hq⟩
    | torn => exact ⟨hsync, fun q hq => .inl hq⟩
  | appendManifest p =>
    cases o with
    | done =>
      refine ⟨hlen _, fun q hq => ?_⟩
      rcases happ (some p) q hq with hq | hq
      · exact .inl hq
      · rcases point_concat h.engine.manifest p with hp | hp
        · exact .inr (by rw [hq, hp])
        · exact .inl (by rw [hq, hp]; exact hall)
    | failed => exact ⟨hsync, fun q hq => .inl hq⟩
    | torn =>
      refine ⟨hlen _, fun q hq => .inl ?_⟩
      rcases happ none q hq with hq | hq
      · exact hq
      · rw [hq, point_concat_none]; exact hall
  | syncManifest =>
    cases o with
    | done =>
      refine ⟨le_rfl, fun q hq => .inl ?_⟩
      rw [mem_mayLoad] at hq ⊢
      rcases hq with hq | ⟨n, hn, hle, hq⟩
      · exact .inl hq
      · exact .inr ⟨n, hsync.trans hn, hle, hq⟩
    | failed => exact ⟨hsync, fun q hq => .inl hq⟩
    | torn => exact ⟨hsync, fun q hq => .inl hq⟩
  | _ => cases o <;> exact ⟨hsync, fun q hq => .inl hq⟩

theorem fenced_exec (hfenced : h.manifestFenced = true → h.manifestMade = true) (op : DiskOp)
    (o : IoOutcome) :
    (h.exec op o).1.manifestFenced = true → (h.exec op o).1.manifestMade = true := by
  cases op with
  | syncLog =>
    obtain ⟨w, -, heq, -⟩ := h.exec_syncLog o
    rw [heq]
    exact hfenced
  | createSegment j =>
    simp only [exec]
    split_ifs <;> exact hfenced
  | createManifest =>
    simp only [exec]
    split_ifs
    · exact hfenced
    · intro hf
      cases hf
  | syncDir => cases o <;> first | exact id | exact hfenced
  | fenceManifest =>
    cases o with
    | done => exact id
    | failed => intro hf; cases hf
    | torn => exact hfenced
  | _ => cases o <;> exact hfenced

theorem Vouched.of_same {h' : Host} (hv : h.Vouched Hs floor segs)
    (hdur : h.engine.writer.wal.durableEnd ≤ h'.engine.writer.wal.durableEnd)
    (hfiles : ∀ i ∈ segs, h'.engine.segments[i]? = h.engine.segments[i]? ∧
      (i ∈ h'.unsynced → i ∈ h.unsynced) ∧ (i ∈ h'.unfenced → i ∈ h.unfenced)) :
    h'.Vouched Hs floor segs where
  durable := hv.durable.trans hdur
  sorted := hv.sorted
  read := by
    obtain ⟨s, hs, hrest⟩ := hv.read
    exact ⟨s, (readSegments_congr fun i hi => (hfiles i hi).1).trans hs, hrest⟩
  kept := fun i hi => ⟨fun hmem => (hv.kept i hi).1 ((hfiles i hi).2.1 hmem),
    fun hmem => (hv.kept i hi).2 ((hfiles i hi).2.2 hmem)⟩

/-- A step keeps what it does not touch. -/
theorem Vouched.exec (hv : h.Vouched Hs floor segs)
    (hb : h.engine.writer.wal.durableEnd ≤ h.log.length) {op : DiskOp} (o : IoOutcome)
    (ht : ∀ i ∈ segs, ¬ op.Touches i) : (h.exec op o).1.Vouched Hs floor segs :=
  hv.of_same (durableEnd_exec hb op o).1 fun i hi => h.files_exec o (ht i hi)

theorem Loadable.exec (hl : h.Loadable Hs q)
    (hb : h.engine.writer.wal.durableEnd ≤ h.log.length) {op : DiskOp} (o : IoOutcome)
    (ht : ∀ i ∈ q.liveSegments, ¬ op.Touches i) : (h.exec op o).1.Loadable Hs q := by
  obtain ⟨hdur, -, hlog⟩ := durableEnd_exec hb op o
  exact ⟨hl.vouched.exec hb o ht, hl.fenced.trans hdur, by rw [hlog]; exact hl.legible⟩

/-- What a step may do to a safe host: not touch a segment recovery may look for, not store a point
that does harm, and not replace a manifest that is there to stay. -/
structure Allows (h : Host) (Hs : ℕ → History) (op : DiskOp) : Prop where
  touches : ∀ i, op.Touches i → ¬ h.Named i
  stores : ∀ p, op = .appendManifest p → h.Loadable Hs p
  renews : op = .createManifest ∨ op = .fenceManifest → h.manifestFenced = false

theorem Allows.quiet {op : DiskOp} (ht : ∀ i, op.Touches i → ¬ h.Named i) (hop : op.Quiet) :
    h.Allows Hs op := by
  refine ⟨ht, fun p hp => ?_, fun hnew => absurd hnew hop.not_new⟩
  rw [hp] at hop
  exact hop.elim

theorem Safe.exec (hs : h.Safe Hs) {op : DiskOp} (hop : h.Allows Hs op) (o : IoOutcome) :
    (h.exec op o).1.Safe Hs := by
  obtain ⟨-, hb, hlog⟩ := durableEnd_exec hs.bounded op o
  obtain ⟨hsync, hload⟩ := mayLoad_exec hs.synced hs.fenced hop.renews o
  refine ⟨by rw [hlog]; exact hs.chained, hb, hsync, fenced_exec hs.fenced op o, fun q hq => ?_⟩
  rcases hload q hq with hq | rfl
  · exact (hs.loadable q hq).exec hs.bounded o fun i hi ht => hop.touches i ht ⟨q, hq, hi⟩
  · exact (hop.stores q rfl).exec hs.bounded o fun i _ ht => ht

/-! ### The invariant -/

/-- The host's engine stores what its log says, its live segments are on disk to stay, and so is
whatever recovery may look for. -/
structure Sane (h : Host) (Hs : ℕ → History) : Prop where
  safe : h.Safe Hs
  stores : Stores h.engine.tiers h.engine.sealedVersions (Hs h.log.length)
  stamped : ∀ prev ∈ h.engine.writer.writer.lastCommit, ∀ k, ∀ ev ∈ Hs h.log.length k,
    ev.instant ≤ prev
  idle : h.engine.writer.group = none
  memory : h.Vouched Hs h.engine.replayFloor h.engine.liveSegments
  sealed : ∀ v, v ∈ h.engine.sealedVersions ↔ (Hs h.engine.replayFloor).Asserts v
  below : ∀ i ∈ h.engine.liveSegments, i < h.engine.nextSegmentIndex
  tombstones : ∀ c, c ∈ h.engine.tiers.delta.retractions ↔
    Redo.retract c ∈ (h.log.drop h.engine.replayFloor).flatMap WalRecord.redos

theorem Sane.of_kin (hs : h.Sane Hs) {h' : Host} (hk : h.Kin h') (hsafe : h'.Safe Hs)
    (hmem : h'.Vouched Hs h.engine.replayFloor h.engine.liveSegments) : h'.Sane Hs := by
  have hlog := hk.log
  obtain ⟨w, m, f, x, -, he⟩ := hk
  refine ⟨hsafe, ?_, ?_, ?_, ?_, ?_, ?_, ?_⟩
  · rw [hlog, he]; exact hs.stores
  · rw [hlog, he]; exact hs.stamped
  · rw [he]; exact hs.idle
  · rw [he]; exact hmem
  · rw [he]; exact hs.sealed
  · rw [he]; exact hs.below
  · rw [hlog, he]; exact hs.tombstones

theorem kin_exec (h : Host) {op : DiskOp} (hop : ¬ op.Adopts) (o : IoOutcome) :
    h.Kin (h.exec op o).1 := by
  cases op with
  | syncLog =>
    obtain ⟨w, hext, heq, -⟩ := h.exec_syncLog o
    rw [heq]
    exact ⟨w, _, _, _, hext, rfl⟩
  | createSegment j =>
    simp only [exec]
    split_ifs <;> exact .refl h
  | createManifest =>
    simp only [exec]
    split_ifs
    · exact .refl h
    · exact ⟨_, _, _, _, .refl _, rfl⟩
  | adoptFlush => exact absurd trivial hop
  | adoptMerge _ => exact absurd trivial hop
  | _ => cases o <;> exact ⟨_, _, _, _, .refl _, rfl⟩

/-- A step that leaves the memory alone keeps the invariant, if it does not touch a live segment or
one that recovery may look for. -/
theorem Sane.exec (hs : h.Sane Hs) {op : DiskOp} (hop : h.Allows Hs op) (hmem : ¬ op.Adopts)
    (hlive : ∀ i ∈ h.engine.liveSegments, ¬ op.Touches i) (o : IoOutcome) :
    (h.exec op o).1.Sane Hs :=
  hs.of_kin (h.kin_exec hmem o) (hs.safe.exec hop o) (hs.memory.exec hs.safe.bounded o hlive)

/-- The host `h'` is `h` after steps that touch no file but those of the segments `T`. -/
structure Beside (h : Host) (Hs : ℕ → History) (T : ℕ → Prop) (h' : Host) : Prop where
  sane : h'.Sane Hs
  kin : h.Kin h'
  durable : h.engine.writer.wal.durableEnd ≤ h'.engine.writer.wal.durableEnd
  files : ∀ j, ¬ T j → h'.engine.segments[j]? = h.engine.segments[j]? ∧
    (j ∈ h'.unsynced → j ∈ h.unsynced) ∧ (j ∈ h'.unfenced → j ∈ h.unfenced)

namespace Beside

variable {T : ℕ → Prop} {h' : Host}

theorem refl (hs : h.Sane Hs) (T : ℕ → Prop) : Beside h Hs T h :=
  ⟨hs, .refl h, le_rfl, fun _ _ => ⟨rfl, id, id⟩⟩

theorem live (hb : Beside h Hs T h') : h'.engine.liveSegments = h.engine.liveSegments := by
  obtain ⟨w, m, f, x, -, he⟩ := hb.kin
  rw [he]

theorem exec (hb : Beside h Hs T h') {op : DiskOp} (hop : h'.Allows Hs op) (hmem : ¬ op.Adopts)
    (ht : ∀ j, op.Touches j → T j ∧ j ∉ h.engine.liveSegments) (o : IoOutcome) :
    Beside h Hs T (h'.exec op o).1 := by
  refine ⟨hb.sane.exec hop hmem (fun j hj htouch => ?_) o, hb.kin.trans (h'.kin_exec hmem o),
    hb.durable.trans (durableEnd_exec hb.sane.safe.bounded op o).1, fun j hj => ?_⟩
  · rw [hb.live] at hj
    exact (ht j htouch).2 hj
  · obtain ⟨hseg, huns, hunf⟩ := h'.files_exec o fun htouch => hj (ht j htouch).1
    obtain ⟨hseg', huns', hunf'⟩ := hb.files j hj
    exact ⟨hseg.trans hseg', fun hm => huns' (huns hm), fun hm => hunf' (hunf hm)⟩

/-- What does not name a touched segment stays vouched for. -/
theorem vouched (hb : Beside h Hs T h') (hv : h.Vouched Hs floor segs) (hq : ∀ i ∈ segs, ¬ T i) :
    h'.Vouched Hs floor segs :=
  hv.of_same hb.durable fun i hi => hb.files i (hq i hi)

theorem loadable (hb : Beside h Hs T h') (hl : h.Loadable Hs q)
    (hq : ∀ i ∈ q.liveSegments, ¬ T i) : h'.Loadable Hs q :=
  ⟨hb.vouched hl.vouched hq, hl.fenced.trans hb.durable, by rw [hb.kin.log]; exact hl.legible⟩

end Beside

/-- A step that has to succeed did. -/
theorem eq_done {op : DiskOp} {o : IoOutcome} (hok : (h.exec op o).2 = true)
    (hop : (∃ i s, op = .writeSegment i s) ∨ (∃ i, op = .syncSegment i) ∨ op = .syncDir ∨
      (∃ p, op = .appendManifest p) ∨ op = .syncManifest) : o = .done := by
  rcases hop with ⟨i, s, rfl⟩ | ⟨i, rfl⟩ | rfl | ⟨p, rfl⟩ | rfl
  all_goals cases o with
    | done => rfl
    | failed => cases hok
    | torn => cases hok

/-- A step that leaves the manifest alone lets recovery look for no other segment. -/
theorem Named.of_exec {op : DiskOp} {o : IoOutcome} {i : ℕ} (hn : (h.exec op o).1.Named i)
    (hs : h.Safe Hs) (hop : op.Quiet) : h.Named i := by
  obtain ⟨q, hq, hi⟩ := hn
  rcases (mayLoad_exec hs.synced hs.fenced (fun hnew => absurd hnew hop.not_new) o).2 q hq with
    hq | rfl
  · exact ⟨q, hq, hi⟩
  · exact hop.elim

/-! ### Sealing a segment -/

/-- The host `h'` is `h` after some of the steps that seal segment `i`. -/
structure Aside (h : Host) (Hs : ℕ → History) (i : ℕ) (h' : Host) : Prop
    extends Beside h Hs (· = i) h' where
  unnamed : ¬ h'.Named i
  made : h'.manifestMade = h.manifestMade
  manifest : h'.engine.manifest = h.engine.manifest

theorem Aside.exec {h' : Host} {i : ℕ} (ha : Aside h Hs i h') (hi : i ∉ h.engine.liveSegments)
    {s : Segment} {op : DiskOp} (hop : op ∈ sealOps i s) (o : IoOutcome) :
    Aside h Hs i (h'.exec op o).1 := by
  obtain ⟨htouch, hadopt, hquiet, hmade, hman⟩ : (∀ j, op.Touches j → j = i) ∧ ¬ op.Adopts ∧
      op.Quiet ∧ (h'.exec op o).1.manifestMade = h'.manifestMade ∧
      (h'.exec op o).1.engine.manifest = h'.engine.manifest := by
    simp only [sealOps, List.mem_cons, List.not_mem_nil, or_false] at hop
    rcases hop with rfl | rfl | rfl | rfl | rfl
    · cases o <;> exact ⟨fun j hj => hj.symm, id, trivial, rfl, rfl⟩
    · refine ⟨fun j hj => hj.symm, id, trivial, ?_, ?_⟩ <;>
        · simp only [Host.exec]; split_ifs <;> rfl
    · cases o <;> exact ⟨fun j hj => hj.symm, id, trivial, rfl, rfl⟩
    · cases o <;> exact ⟨fun j hj => hj.symm, id, trivial, rfl, rfl⟩
    · cases o <;> exact ⟨fun j hj => hj.elim, id, trivial, rfl, rfl⟩
  have hallows : h'.Allows Hs op := .quiet (fun j hj => htouch j hj ▸ ha.unnamed) hquiet
  exact ⟨ha.toBeside.exec hallows hadopt (fun j hj => ⟨htouch j hj, htouch j hj ▸ hi⟩) o,
    fun hn => ha.unnamed (hn.of_exec ha.sane.safe hquiet), hmade.trans ha.made,
    hman.trans ha.manifest⟩

/-- **Sealing a segment** keeps the invariant at every step, and ends with the file on disk to
stay. -/
theorem guarded_sealOps (hs : h.Sane Hs) {i : ℕ} (hi : ¬ h.Named i)
    (hlive : i ∉ h.engine.liveSegments) (s : Segment) :
    Guarded Host.exec .done (Sane · Hs) h (sealOps i s) fun h' =>
      Aside h Hs i h' ∧ h'.engine.segments[i]? = some s ∧ i ∉ h'.unsynced ∧ i ∉ h'.unfenced := by
  have ha : Aside h Hs i h := ⟨.refl hs _, hi, rfl, rfl⟩
  have hstep : ∀ {h' : Host}, Aside h Hs i h' → ∀ op : DiskOp, op ∈ sealOps i s → ∀ o,
      Aside h Hs i (h'.exec op o).1 := fun ha _ hop o => ha.exec hlive hop o
  refine .cons hs fun o => ?_
  have h₁ := hstep ha (.removeSegment i) (by simp [sealOps]) o
  -- the removal may fail and leave a file of the old number, which the creation then refuses
  refine ⟨h₁.sane, fun _ => .cons h₁.sane fun o => ?_⟩
  have h₂ := hstep h₁ (.createSegment i) (by simp [sealOps]) o
  refine ⟨h₂.sane, fun _ => .cons h₂.sane fun o => ?_⟩
  have h₃ := hstep h₂ (.writeSegment i s) (by simp [sealOps]) o
  -- from here on a step that fails ends the call, and so is done where there is a next one
  refine ⟨h₃.sane, fun hok => .cons h₃.sane fun o' => ?_⟩
  obtain rfl := eq_done hok (.inl ⟨i, s, rfl⟩)
  have h₄ := hstep h₃ (.syncSegment i) (by simp [sealOps]) o'
  refine ⟨h₄.sane, fun hok => .cons h₄.sane fun o => ?_⟩
  obtain rfl := eq_done hok (.inr (.inl ⟨i, rfl⟩))
  have h₅ := hstep h₄ .syncDir (by simp [sealOps]) o
  refine ⟨h₅.sane, fun hok => .nil h₅.sane ?_⟩
  obtain rfl := eq_done hok (.inr (.inr (.inl rfl)))
  refine ⟨h₅, (OrdMap.getElem?_insert ..).trans (if_pos rfl), ?_, List.not_mem_nil⟩
  simp [Host.exec]

/-! ### Storing a record -/

/-- The host `h'` is `h` with a record stored in the manifest. -/
structure Stored (h : Host) (Hs : ℕ → History) (p : RecoveryPoint) (h' : Host) : Prop
    extends Beside h Hs (fun _ => False) h' where
  synced : h'.manifestSynced = h'.engine.manifest.length
  manifest : h'.engine.manifest = h.engine.manifest ++ [some p] ∨ h'.engine.manifest = [some p]

/-- **Storing a record** that does no harm keeps the invariant at every step.  A manifest is made
only if there is none to stay. -/
theorem guarded_storeOps (hs : h.Sane Hs) {p : RecoveryPoint} (hp : h.Loadable Hs p) {made : Bool}
    (hmade : made = false → h.manifestMade = false) :
    Guarded Host.exec .done (Sane · Hs) h (storeOps made p) (Stored h Hs p) := by
  have hstep : ∀ {h' : Host}, Beside h Hs (fun _ => False) h' → ∀ op : DiskOp,
      ¬ op.Adopts → (∀ j, ¬ op.Touches j) → (∀ p', op = .appendManifest p' → p' = p) →
      (op = .createManifest ∨ op = .fenceManifest → h'.manifestFenced = false) → ∀ o,
      Beside h Hs (fun _ => False) (h'.exec op o).1 := by
    intro h' hb op hadopt htouch happ hnew o
    refine hb.exec ⟨fun j hj => absurd hj (htouch j), fun p' hp' => ?_, hnew⟩ hadopt
      (fun j hj => absurd hj (htouch j)) o
    rw [happ p' hp']
    exact hb.loadable hp fun _ _ => id
  -- the last two steps, on a manifest that is the old one or a new one
  have hlast : ∀ {h' : Host}, Beside h Hs (fun _ => False) h' →
      (h'.engine.manifest = h.engine.manifest ∨ h'.engine.manifest = []) →
      Guarded Host.exec .done (Sane · Hs) h' [.appendManifest p, .syncManifest]
        (Stored h Hs p) := by
    intro h' hb hman
    refine .cons hb.sane fun o => ?_
    have h₁ := hstep hb (.appendManifest p) id (fun _ => id)
      (fun p' hp' => (DiskOp.appendManifest.inj hp').symm)
      (by rintro (hnew | hnew) <;> cases hnew) o
    refine ⟨h₁.sane, fun hok => .cons h₁.sane fun o' => ?_⟩
    obtain rfl := eq_done hok (.inr (.inr (.inr (.inl ⟨p, rfl⟩))))
    have h₂ := hstep h₁ .syncManifest id (fun _ => id) (fun p' hp' => by cases hp')
      (by rintro (hnew | hnew) <;> cases hnew) o'
    refine ⟨h₂.sane, fun hok => .nil h₂.sane ?_⟩
    obtain rfl := eq_done hok (.inr (.inr (.inr (.inr rfl))))
    refine ⟨h₂, rfl, ?_⟩
    refine hman.imp (fun hman => ?_) fun hman => ?_
    · exact congrArg (· ++ [some p]) hman
    · exact congrArg (· ++ [some p]) hman
  have hrefl : Beside h Hs (fun _ => False) h := .refl hs _
  cases made with
  | true => exact hlast hrefl (.inl rfl)
  | false =>
    -- a crash may take a new file away, which leaves the empty manifest of before
    have hunfenced : h.manifestFenced = false := hs.safe.unfenced (hmade rfl)
    refine .cons hs fun o => ?_
    have h₁ := hstep hrefl .createManifest id (fun _ => id) (fun p' hp' => by cases hp')
      (fun _ => hunfenced) o
    refine ⟨h₁.sane, fun hok => .cons h₁.sane fun o' => ?_⟩
    -- the new file is there, and its directory entry is not durable yet
    obtain ⟨hnil, hunfenced₁⟩ : (h.exec .createManifest o).1.engine.manifest = [] ∧
        (h.exec .createManifest o).1.manifestFenced = false := by
      simp only [Host.exec] at hok ⊢
      split_ifs at hok ⊢ with hf
      exact ⟨rfl, rfl⟩
    have h₂ := hstep h₁ .fenceManifest id (fun _ => id) (fun p' hp' => by cases hp')
      (fun _ => hunfenced₁) o'
    refine ⟨h₂.sane, fun hok' => hlast h₂ (.inr ?_)⟩
    cases o' with
    | done => exact hnil
    | failed => cases hok'
    | torn => cases hok'

/-! ### Checkpoints and flushes -/

/-- Nothing of the log is lost in a crash. -/
def Synced (h : Host) : Prop := h.engine.writer.wal.durableEnd = h.log.length

theorem Beside.sync {h' : Host} {T : ℕ → Prop} (hb : Beside h Hs T h') (hd : h.Synced) :
    h'.Synced := by
  refine le_antisymm hb.sane.safe.bounded ?_
  rw [hb.kin.log, ← hd]
  exact hb.durable

/-- Noting the fence keeps the invariant. -/
theorem guarded_noteFence (hs : h.Sane Hs) :
    Guarded Host.exec .done (Sane · Hs) h [.noteFence] fun _ => True := by
  have hn : ∀ o, (h.exec .noteFence o).1.Sane Hs := fun o =>
    hs.exec (.quiet (fun _ hj => hj.elim) trivial : h.Allows Hs .noteFence) id (fun _ _ => id) o
  exact .cons hs fun o => ⟨hn o, fun _ => .nil (hn o) trivial⟩

/-- The live segments with a segment of what is staged hold the table as it is. -/
theorem Sane.vouched_staged (hs : h.Sane Hs) (hd : h.Synced)
    (hseg : h.engine.segments[h.engine.nextSegmentIndex]? =
      some { versions := h.engine.tiers.delta.stagedVersions
             retractions := h.engine.tiers.delta.stagedRetractions })
    (huns : h.engine.nextSegmentIndex ∉ h.unsynced)
    (hunf : h.engine.nextSegmentIndex ∉ h.unfenced) :
    h.Vouched Hs h.engine.writer.wal.durableEnd
      (h.engine.liveSegments ++ [h.engine.nextSegmentIndex]) ∧
    ∀ v, v ∈ h.engine.sealedVersions ++ h.engine.tiers.delta.stagedVersions ↔
      (Hs h.log.length).Asserts v := by
  obtain ⟨s, hread, hsv, hsr⟩ := hs.memory.read
  have hfloor : h.engine.replayFloor ≤ h.log.length := hs.memory.durable.trans hs.safe.bounded
  have hrest := hs.safe.chained.writes hfloor le_rfl
  rw [List.take_length] at hrest
  obtain ⟨hall, hvers, hretr⟩ := mem_flushed hs.stores hs.sealed hsv hsr
    (hs.safe.chained.wellFormed hfloor) hrest hs.tombstones
  have hread' : readSegments h.engine.segments
      (h.engine.liveSegments ++ [h.engine.nextSegmentIndex]) =
        some { versions := s.versions ++ h.engine.tiers.delta.stagedVersions
               retractions := s.retractions ++ h.engine.tiers.delta.stagedRetractions } := by
    rw [readSegments_append, hread, readSegments_singleton hseg (readable_of_plain _ _)]
    rfl
  refine ⟨⟨le_rfl, ?_, ⟨_, hread', ?_⟩, fun i hi => ?_⟩, hall⟩
  · refine List.pairwise_append.2
      ⟨hs.memory.sorted, List.pairwise_singleton .., fun i hi j hj => ?_⟩
    rw [List.mem_singleton.1 hj]
    exact hs.below i hi
  · rw [show h.engine.writer.wal.durableEnd = _ from hd]
    exact ⟨hvers, hretr⟩
  · rcases List.mem_append.1 hi with hi | hi
    · exact hs.memory.kept i hi
    · rw [List.mem_singleton.1 hi]; exact ⟨huns, hunf⟩

/-- **Adopting a flushed segment** keeps the invariant. -/
theorem Sane.adoptFlush (hs : h.Sane Hs) (hd : h.Synced)
    (hseg : h.engine.segments[h.engine.nextSegmentIndex]? =
      some { versions := h.engine.tiers.delta.stagedVersions
             retractions := h.engine.tiers.delta.stagedRetractions })
    (huns : h.engine.nextSegmentIndex ∉ h.unsynced) (hunf : h.engine.nextSegmentIndex ∉ h.unfenced)
    (o : IoOutcome) : (h.exec .adoptFlush o).1.Sane Hs := by
  obtain ⟨hv, hall⟩ := hs.vouched_staged hd hseg huns hunf
  have hop : h.Allows Hs .adoptFlush := .quiet (fun _ hj => hj.elim) trivial
  refine ⟨hs.safe.exec hop o, hs.stores.sealStaged fun v => List.mem_append, hs.stamped, hs.idle,
    hv.exec hs.safe.bounded o fun _ _ => id, ?_, fun i hi => ?_, fun c => ?_⟩
  · intro v
    refine (hall v).trans ?_
    rw [show (h.exec .adoptFlush o).1.engine.replayFloor = h.log.length from hd]
  · rcases List.mem_append.1 hi with hi | hi
    · exact (hs.below i hi).trans (Nat.lt_succ_self _)
    · rw [List.mem_singleton.1 hi]; exact Nat.lt_succ_self _
  · -- the floor is the end of the log, and no tombstone is staged
    have htail : (h.exec .adoptFlush o).1.log.drop
        (h.exec .adoptFlush o).1.engine.replayFloor = [] :=
      List.drop_eq_nil_of_le (le_of_eq hd.symm)
    rw [htail]
    simp [Host.exec, Delta.discardFlushed, Delta.clearStaged]

/-- What a step on other files leaves of the memory. -/
theorem Kin.memory {h' : Host} (hk : h.Kin h') :
    h'.engine.tiers = h.engine.tiers ∧ h'.engine.liveSegments = h.engine.liveSegments ∧
      h'.engine.nextSegmentIndex = h.engine.nextSegmentIndex ∧
      h'.engine.replayFloor = h.engine.replayFloor := by
  obtain ⟨w, m, f, x, -, he⟩ := hk
  rw [he]
  exact ⟨rfl, rfl, rfl, rfl⟩

theorem Sane.next_notMem (hs : h.Sane Hs) : h.engine.nextSegmentIndex ∉ h.engine.liveSegments :=
  fun hi => lt_irrefl _ (hs.below _ hi)

/-- A step that only reads. -/
theorem guarded_read {op : DiskOp} {ops : List DiskOp} {Q : Host → Prop} (hs : h.Sane Hs)
    (hread : ∀ o, (h.exec op o).1 = h) (hrest : Guarded Host.exec .done (Sane · Hs) h ops Q) :
    Guarded Host.exec .done (Sane · Hs) h (op :: ops) Q :=
  .cons hs fun o => by rw [hread o]; exact ⟨hs, fun _ => hrest⟩

/-- The floor and the live segments of the memory, with the durable end of the log as fence, if
nothing is torn past the floor. -/
theorem Sane.loadable_memory (hs : h.Sane Hs) (hwhole : .torn ∉ h.log.drop h.engine.replayFloor) :
    h.Loadable Hs
      ⟨h.engine.replayFloor, h.engine.writer.wal.durableEnd, h.engine.liveSegments⟩ :=
  ⟨hs.memory, le_rfl, .of_whole hwhole⟩

theorem guarded_checkpoint (hs : h.Sane Hs) (hwhole : .torn ∉ h.log.drop h.engine.replayFloor) :
    Guarded Host.exec .done (Sane · Hs) h
      (h.opsAfterSync h.engine.writer.wal.durableEnd .checkpoint) fun _ => True :=
  (guarded_storeOps hs (hs.loadable_memory hwhole) id).append fun _ hst =>
    guarded_noteFence hst.sane

/-- **A flush** keeps the invariant at every step, if recovery may not look for the segment it
writes, or, when nothing is staged, nothing is torn past the floor. -/
theorem guarded_flush (hs : h.Sane Hs) (hd : h.Synced)
    (hclear : h.staged = true → ¬ h.Named h.engine.nextSegmentIndex)
    (hwhole : h.staged = false → .torn ∉ h.log.drop h.engine.replayFloor) :
    Guarded Host.exec .done (Sane · Hs) h (h.opsAfterSync h.engine.writer.wal.durableEnd .flush)
      fun _ => True := by
  refine guarded_read hs (fun _ => rfl) ?_
  -- seal and then store, or store only
  split_ifs with hst
  · refine (guarded_sealOps hs (hclear hst) hs.next_notMem _).append ?_
    rintro h₁ ⟨ha, hseg, huns, hunf⟩
    obtain ⟨htiers, hlive, hnext, -⟩ := ha.kin.memory
    have hd₁ := ha.toBeside.sync hd
    have hdur : h₁.engine.writer.wal.durableEnd = h.engine.writer.wal.durableEnd := by
      rw [show _ = _ from hd₁, show _ = _ from hd, ha.kin.log]
    rw [← htiers, ← hnext] at hseg
    rw [← hnext] at huns hunf
    have hv := (ha.sane.vouched_staged hd₁ hseg huns hunf).1
    rw [hdur, hlive, hnext] at hv
    -- the floor is the end of the log, so nothing is torn past it
    have hlegible : Legible h₁.log ⟨h.engine.writer.wal.durableEnd,
        h.engine.writer.wal.durableEnd, h.engine.liveSegments ++ [h.engine.nextSegmentIndex]⟩ := by
      refine .of_whole ?_
      rw [ha.kin.log, List.drop_eq_nil_of_le (le_of_eq (show _ = _ from hd).symm)]
      exact List.not_mem_nil
    refine (guarded_storeOps ha.sane ⟨hv, hdur.ge, hlegible⟩ fun hm => ?_).append fun h₂ hst => ?_
    · rw [ha.made]; exact hm
    obtain ⟨htiers₂, -, hnext₂, -⟩ := hst.kin.memory
    obtain ⟨hfile, huns₂, hunf₂⟩ := hst.files h₁.engine.nextSegmentIndex id
    have hadopt : ∀ o, (h₂.exec .adoptFlush o).1.Sane Hs := by
      refine hst.sane.adoptFlush (hst.toBeside.sync hd₁) ?_ ?_ ?_
      · rw [hnext₂, hfile, hseg, htiers₂]
      · rw [hnext₂]; exact fun hm => huns (huns₂ hm)
      · rw [hnext₂]; exact fun hm => hunf (hunf₂ hm)
    exact .cons hst.sane fun o => ⟨hadopt o, fun _ => .nil (hadopt o) trivial⟩
  · exact (guarded_storeOps hs (hs.loadable_memory (hwhole (Bool.eq_false_iff.2 hst))) id).append
      fun _ hst => guarded_noteFence hst.sane

/-! ### Compactions -/

theorem guarded_readSegments (hs : h.Sane Hs) (is : List ℕ) {ops : List DiskOp} {Q : Host → Prop}
    (hrest : Guarded Host.exec .done (Sane · Hs) h ops Q) :
    Guarded Host.exec .done (Sane · Hs) h (is.map .readSegment ++ ops) Q := by
  induction is with
  | nil => exact hrest
  | cons i is ih => exact guarded_read hs (fun _ => rfl) ih

/-- **Removing segment files** that nothing names keeps the invariant at every step. -/
theorem guarded_removeSegments (hs : h.Sane Hs) {is : List ℕ}
    (his : ∀ i ∈ is, ¬ h.Named i ∧ i ∉ h.engine.liveSegments) :
    Guarded Host.exec .done (Sane · Hs) h (is.map .removeSegment) fun _ => True := by
  induction is generalizing h with
  | nil => exact .nil hs trivial
  | cons i is ih =>
    obtain ⟨hnamed, hlive⟩ := his i List.mem_cons_self
    have hop : h.Allows Hs (.removeSegment i) := .quiet (fun j hj => hj ▸ hnamed) trivial
    have hstep : ∀ o, (h.exec (.removeSegment i) o).1.Sane Hs :=
      hs.exec hop id fun j hj ht => hlive (by rw [show i = j from ht]; exact hj)
    refine .cons hs fun o => ⟨hstep o, fun _ => ih (hstep o) fun j hj => ?_⟩
    obtain ⟨hnamed, hlive⟩ := his j (List.mem_cons_of_mem _ hj)
    have hk : h.Kin (h.exec (.removeSegment i) o).1 := h.kin_exec id o
    rw [hk.memory.2.1]
    exact ⟨fun hn => hnamed (hn.of_exec hs.safe trivial), hlive⟩

/-- Once a record is stored, recovery looks for the segments it names, or for those it looked for
before if the record is hidden. -/
theorem Stored.unnamed {h' : Host} {p : RecoveryPoint} (hst : Stored h Hs p h')
    (hp : p.accepted = true) {i : ℕ} (hi : i ∉ p.liveSegments)
    (hold : (∀ r ∈ h.engine.manifest, r.any RecoveryPoint.accepted = true) ∨
      i ∉ h.engine.manifest.point.liveSegments) : ¬ h'.Named i := by
  have hpoint : i ∉ h'.engine.manifest.point.liveSegments := by
    rcases hst.manifest with hman | hman
    · rw [hman]
      rcases hold with hall | hold
      · rw [Manifest.point, Manifest.load_append hall hp]
        exact hi
      · rcases point_concat h.engine.manifest p with hpt | hpt
        · rw [hpt]; exact hi
        · rw [hpt]; exact hold
    · have hload : Manifest.load [some p] = some p :=
        Manifest.load_append (m := []) (fun r hr => by cases hr) hp
      rw [hman, Manifest.point, hload]
      exact hi
  rintro ⟨q, hq, hmem⟩
  rcases mem_mayLoad.1 hq with ⟨-, rfl⟩ | ⟨n, hn, hle, rfl⟩
  · cases hmem
  · rw [hst.synced] at hn
    rw [List.take_of_length_le hn] at hmem
    exact hpoint hmem

/-- **Adopting a merged segment** keeps the invariant. -/
theorem Sane.adoptMerge (hs : h.Sane Hs) {versions : List Version}
    (hv : h.Vouched Hs h.engine.replayFloor [h.engine.nextSegmentIndex])
    (hvers : ∀ v, v ∈ versions ↔ (Hs h.engine.replayFloor).Asserts v) (o : IoOutcome) :
    (h.exec (.adoptMerge versions) o).1.Sane Hs := by
  have hop : h.Allows Hs (.adoptMerge versions) := .quiet (fun _ hj => hj.elim) trivial
  refine ⟨hs.safe.exec hop o, hs.stores.sealed_congr fun v => (hvers v).trans (hs.sealed v).symm,
    hs.stamped, hs.idle, hv.exec hs.safe.bounded o fun _ _ => id, hvers, fun i hi => ?_,
    hs.tombstones⟩
  rw [List.mem_singleton.1 hi]
  exact Nat.lt_succ_self _

/-- **A compaction** keeps the invariant at every step, if recovery may not look for the segment it
writes, its record is not hidden or what hides it names none of the segments it retires, nothing is
torn past the floor, and the reader accepts the merged segment. -/
theorem guarded_compact (hs : h.Sane Hs)
    (hnamed : ¬ h.Named h.engine.nextSegmentIndex)
    (hold : (∀ r ∈ h.engine.manifest, r.any RecoveryPoint.accepted = true) ∨
      ∀ i ∈ h.engine.liveSegments, i ∉ h.engine.manifest.point.liveSegments)
    (hwhole : .torn ∉ h.log.drop h.engine.replayFloor)
    (hread : ∀ s ∈ readSegments h.engine.segments h.engine.liveSegments,
      (h.engine.mergedSegment s).Readable) :
    Guarded Host.exec .done (Sane · Hs) h (h.opsAfterSync h.engine.writer.wal.durableEnd .compact)
      fun _ => True := by
  obtain ⟨s, hs', hsv, hsr⟩ := hs.memory.read
  have hreadable := hread s hs'
  simp only [opsAfterSync, hs']
  have hvers : ∀ v, v ∈ (h.engine.mergedSegment s).versions ↔
      (Hs h.engine.replayFloor).Asserts v := fun v => List.mem_mergeSort.trans (hsv v)
  have hretr : ∀ c, c ∈ (h.engine.mergedSegment s).retractions ↔
      (Hs h.engine.replayFloor).Retracts c := fun c => List.mem_mergeSort.trans (hsr c)
  generalize h.engine.mergedSegment s = output at hreadable hvers hretr ⊢
  refine guarded_readSegments hs _ ?_
  refine (guarded_sealOps hs hnamed hs.next_notMem _).append ?_
  rintro h₁ ⟨ha, hseg, huns, hunf⟩
  obtain ⟨-, hlive, hnext, hfloor⟩ := ha.kin.memory
  have hv : h₁.Vouched Hs h.engine.replayFloor [h.engine.nextSegmentIndex] := by
    refine ⟨hs.memory.durable.trans ha.durable, List.pairwise_singleton ..,
      ⟨_, readSegments_singleton hseg hreadable, hvers, hretr⟩, fun i hi => ?_⟩
    rw [List.mem_singleton.1 hi]; exact ⟨huns, hunf⟩
  have hlegible : Legible h₁.log ⟨h.engine.replayFloor, h.engine.writer.wal.durableEnd,
      [h.engine.nextSegmentIndex]⟩ := .of_whole (by rw [ha.kin.log]; exact hwhole)
  refine (guarded_storeOps ha.sane ⟨hv, ha.durable, hlegible⟩ fun hm => ?_).append fun h₂ hst => ?_
  · rw [ha.made]; exact hm
  obtain ⟨-, hlive₂, hnext₂, hfloor₂⟩ := hst.kin.memory
  rw [← hfloor, ← hfloor₂] at hvers
  have hv₂ : h₂.Vouched Hs h₂.engine.replayFloor [h₂.engine.nextSegmentIndex] := by
    rw [hfloor₂, hfloor, hnext₂, hnext]
    exact hst.toBeside.vouched hv fun _ _ => id
  have hadopt := hst.sane.adoptMerge hv₂ hvers
  refine .cons hst.sane fun o => ⟨hadopt o, fun _ => ?_⟩
  refine guarded_removeSegments (hadopt o) fun i hi => ?_
  have hne : i ≠ h.engine.nextSegmentIndex := (hs.below i hi).ne
  refine ⟨fun hn => ?_, fun hmem => ?_⟩
  · have hn₂ := hn.of_exec hst.sane.safe trivial
    refine hst.unnamed rfl (by simpa using hne) ?_ hn₂
    rw [ha.manifest]
    exact hold.imp_right fun hold => hold i hi
  · have hmem : i ∈ [h₂.engine.nextSegmentIndex] := hmem
    rw [hnext₂, hnext, List.mem_singleton] at hmem
    exact hne hmem

/-! ### Calls -/

/-- What a run does between two crashes. -/
inductive Act where
  /-- A call of the write path: a record of the log. -/
  | append
  /-- A checkpoint, a flush or a compaction. -/
  | upkeep (u : Upkeep)
  deriving DecidableEq

/-- The act does no harm to what recovery may look for.  A record is not logged behind a torn frame
that recovery may still come to; the fence is not moved past such a frame.  A flush or a compaction
writes a segment that no record names which recovery may load; a compaction makes a segment that the
reader accepts, and the records of its manifest are all ones the reader accepts, or the one it loads
names none of the compacted segments. -/
def Clear (h : Host) : Act → Prop
  | .append => ∀ q ∈ h.mayLoad, .torn ∉ h.log.drop q.replayFloor
  | .upkeep .checkpoint => .torn ∉ h.log.drop h.engine.replayFloor
  | .upkeep .flush => (h.staged = true → ¬ h.Named h.engine.nextSegmentIndex) ∧
    (h.staged = false → .torn ∉ h.log.drop h.engine.replayFloor)
  | .upkeep .compact => 2 ≤ h.engine.liveSegments.length → ¬ h.Named h.engine.nextSegmentIndex ∧
    ((∀ r ∈ h.engine.manifest, r.any RecoveryPoint.accepted = true) ∨
      ∀ i ∈ h.engine.liveSegments, i ∉ h.engine.manifest.point.liveSegments) ∧
    .torn ∉ h.log.drop h.engine.replayFloor ∧
      ∀ s ∈ readSegments h.engine.segments h.engine.liveSegments,
        (h.engine.mergedSegment s).Readable

instance (h : Host) : (a : Act) → Decidable (h.Clear a)
  | .append => inferInstanceAs (Decidable (∀ q ∈ h.mayLoad, .torn ∉ h.log.drop q.replayFloor))
  | .upkeep .checkpoint => inferInstanceAs (Decidable (.torn ∉ h.log.drop h.engine.replayFloor))
  | .upkeep .flush => inferInstanceAs (Decidable (_ ∧ _))
  | .upkeep .compact => inferInstanceAs (Decidable (_ → _))

/-- The rest of a call, once the log is fsynced. -/
theorem guarded_opsAfterSync (hs : h.Sane Hs) (hd : h.Synced) {u : Upkeep}
    (hclear : h.Clear (.upkeep u))
    (hfew : ¬ (u = .compact ∧ h.engine.liveSegments.length < 2)) :
    Guarded Host.exec .done (Sane · Hs) h (h.opsAfterSync h.engine.writer.wal.durableEnd u)
      fun _ => True := by
  cases u with
  | checkpoint => exact guarded_checkpoint hs hclear
  | flush => exact guarded_flush hs hd hclear.1 hclear.2
  | compact =>
    obtain ⟨hnamed, hold, hwhole, hread⟩ := hclear (not_lt.1 fun hlt => hfew ⟨rfl, hlt⟩)
    exact guarded_compact hs hnamed hold hwhole hread

/-- After the fsync of the log the host is as before, with nothing of the log left to lose. -/
theorem exec_syncLog_ok {o : IoOutcome} (hok : (h.exec .syncLog o).2 = true) (u : Upkeep) :
    (h.exec .syncLog o).1.Synced ∧ ((h.exec .syncLog o).1.Clear (.upkeep u) ↔ h.Clear (.upkeep u)) ∧
      h.opsAfterSync h.engine.writer.wal.records.length u =
        (h.exec .syncLog o).1.opsAfterSync (h.exec .syncLog o).1.engine.writer.wal.durableEnd u ∧
      (h.exec .syncLog o).1.engine.liveSegments = h.engine.liveSegments := by
  obtain ⟨w, hext, heq, hend⟩ := h.exec_syncLog o
  have hlen : w.durableEnd = h.engine.writer.wal.records.length := by rw [hend hok, hext.same]
  rw [heq]
  refine ⟨hend hok, ?_, ?_, rfl⟩
  · have hlog : w.records = h.engine.writer.wal.records := hext.same
    cases u <;> simp only [Clear, log, hlog] <;> rfl
  · rw [show ({ h with engine := { h.engine with writer := { h.engine.writer with wal := w } } } :
      Host).engine.writer.wal.durableEnd = _ from hlen]
    cases u <;> rfl

/-- **A call keeps the invariant at every step**, whatever the disk does, if it does no harm to what
recovery may look for. -/
theorem guarded_ops (hs : h.Sane Hs) {u : Upkeep} (hclear : h.Clear (.upkeep u)) :
    Guarded Host.exec .done (Sane · Hs) h (h.ops u) fun _ => True := by
  rw [ops]
  split_ifs with hfew
  · exact .nil hs trivial
  · have hsync : ∀ o, (h.exec .syncLog o).1.Sane Hs := fun o =>
      hs.exec (.quiet (fun _ hj => hj.elim) trivial : h.Allows Hs .syncLog) id (fun _ _ => id) o
    refine .cons hs fun o => ⟨hsync o, fun hok => ?_⟩
    obtain ⟨hd, hcl, hops, hlive⟩ := exec_syncLog_ok hok u
    rw [hops]
    refine guarded_opsAfterSync (hsync o) hd (hcl.2 hclear) ?_
    rwa [hlive]

theorem Sane.cut (hs : h.Sane Hs) {u : Upkeep} (hclear : h.Clear (.upkeep u))
    (os : Faults) (n : ℕ) :
    (h.cut u os n).Sane Hs :=
  (guarded_ops hs hclear os).1 n

theorem Sane.upkeep (hs : h.Sane Hs) {u : Upkeep} (hclear : h.Clear (.upkeep u)) (os : Faults) :
    (h.upkeep u os).Sane Hs := by
  have := (guarded_ops hs hclear os).1 (h.ops u).length
  rwa [List.take_length] at this

/-- Steps do not lose what is durable of the log, and write nothing to it. -/
theorem log_runOps (hb : h.engine.writer.wal.durableEnd ≤ h.log.length) (ops : List DiskOp)
    (os : Faults) :
    h.engine.writer.wal.durableEnd ≤
        (runOps Host.exec .done h ops os).1.engine.writer.wal.durableEnd ∧
      (runOps Host.exec .done h ops os).1.log = h.log := by
  induction ops generalizing h os with
  | nil => exact ⟨le_rfl, rfl⟩
  | cons op ops ih =>
    obtain ⟨hdur, hb', hlog⟩ := durableEnd_exec hb op (os.headD .done)
    rw [runOps]
    rcases hx : h.exec op (os.headD .done) with ⟨h', ok⟩
    rw [hx] at hdur hb' hlog
    cases ok with
    | false => exact ⟨hdur, hlog⟩
    | true =>
      obtain ⟨hdur', hlog'⟩ := ih hb' os.tail
      exact ⟨hdur.trans hdur', hlog'.trans hlog⟩

/-- Past the fsync of the log, nothing of it can be lost. -/
theorem Sane.synced_cut (hs : h.Sane Hs) {u : Upkeep} (hclear : h.Clear (.upkeep u))
    (os : Faults) {n : ℕ}
    (hn : 0 < n) (hlt : n < (h.ops u).length) (hsync : h.engine.tick.2 = .ok ()) :
    (h.cut u os n).Synced := by
  have hb := (hs.cut hclear os n).safe.bounded
  refine le_antisymm hb ?_
  obtain ⟨m, rfl⟩ := Nat.exists_eq_succ_of_ne_zero hn.ne'
  have hfew : ¬ (u = .compact ∧ h.engine.liveSegments.length < 2) := by
    intro hfew
    rw [ops, if_pos hfew] at hlt
    exact absurd hlt (Nat.not_lt_zero _)
  have hok : (h.exec .syncLog (os.headD .done)).2 = true := by
    simp only [Host.exec]
    rcases ht : h.engine.tick with ⟨e, err | _⟩
    · rw [ht] at hsync; cases hsync
    · rfl
  obtain ⟨hd, -, -, -⟩ := exec_syncLog_ok hok u
  have hcut : h.cut u os (m + 1) = (runOps Host.exec .done (h.exec .syncLog (os.headD .done)).1
      ((h.opsAfterSync h.engine.writer.wal.records.length u).take m) os.tail).1 := by
    rw [Host.cut, ops, if_neg hfew, List.take_succ_cons, runOps]
    rcases hx : h.exec .syncLog (os.headD .done) with ⟨h', ok⟩
    rw [hx] at hok
    cases ok with
    | false => cases hok
    | true => rfl
  obtain ⟨hdur, hlog⟩ := log_runOps (le_of_eq hd)
    ((h.opsAfterSync h.engine.writer.wal.records.length u).take m) os.tail
  rw [hcut, hlog, ← hd]
  exact hdur

end Host

end SteleDb
