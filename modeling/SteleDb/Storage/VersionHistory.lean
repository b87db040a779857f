import SteleDb.Lib.ExceptMap
import SteleDb.Storage.DeltaScans
import SteleDb.Storage.EngineRun
import SteleDb.Storage.SegmentStats
import SteleDb.Storage.TierRun

/-!
# The timeline of a key, as the engine lists it

`Engine.versionHistory` lists every version that a key ever had, with its resolved period.  On a
table with a valid-time axis a staged version carries its interval in front of the payload, and the
listing strips it.  A sealed segment keeps the interval in columns of its own and the payload bare,
but its reader puts the two together again: what the listing takes from a segment has the interval
in front, and is not stripped.

* `SealedRow.version_ofVersion` : a row of a segment is read back as it was stored;
* `Segment.mightContain_of_mem` : the key range of a segment does not rule out its own keys;
* `Engine.versionHistory_eq` : the listing is the timeline of the key, with the bare payload of what
  is staged and the stored payload of what is sealed.
-/

namespace SteleDb

open Timeline

/-! ### Rows of a sealed segment -/

/-- A payload behind its interval, from the columns of the interval. -/
def reframePayload (validFrom validTo : ValidTimeMicros) (user : Bytes) : Bytes :=
  i64ToLeBytes validFrom ++ i64ToLeBytes validTo ++ user

/-- The cells of a row of a sealed segment. -/
structure SealedRow where
  /-- The key. -/
  businessKey : BusinessKey
  /-- Start of the system period. -/
  sysFrom : SystemTimeMicros
  /-- Tie-break. -/
  seq : Seq
  /-- The payload, without its interval. -/
  payload : Option Bytes
  /-- Provenance of the write. -/
  provenance : Provenance
  /-- The interval, in a segment with columns for it. -/
  valid : Option (ValidTimeMicros × ValidTimeMicros)
  deriving DecidableEq

namespace SealedRow

/-- The cells that the writer makes of a version. -/
def ofVersion (validTime : Bool) (v : Version) : Except SegmentError SealedRow :=
  if validTime then do
    let pair ← decodeValidPair v
    let payload ← extractBytes .payload v true
    pure ⟨v.businessKey, v.sysFrom, v.seq, payload, v.provenance, some pair⟩
  else do
    let payload ← extractBytes .payload v false
    pure ⟨v.businessKey, v.sysFrom, v.seq, payload, v.provenance, none⟩

/-- The version that the reader makes of a row: open, with its interval in front of the payload. -/
def version (r : SealedRow) : Version :=
  Version.mkOpen r.businessKey r.sysFrom r.seq r.provenance
    (r.valid.elim r.payload fun pair => r.payload.map (reframePayload pair.1 pair.2))

end SealedRow

/-- Read all rows of a segment. -/
def Segment.readVersions (s : Segment) (validTime : Bool) : Except EngineError (List Version) :=
  if s.Readable then
    match s.versions.mapM (SealedRow.ofVersion validTime) with
    | .ok rows => .ok (rows.map SealedRow.version)
    | .error _ => .error .segment
  else .error .segment

/-- The key range in the footer of a segment. -/
def Segment.keyStats (s : Segment) : StatMap :=
  match encodeBytesValues (s.versions.map fun v => some v.businessKey) with
  | .ok stats => .fromBounds [(.businessKey, stats.1.toEnd .bytes, stats.2.toEnd .bytes)]
  | .error _ => ⟨[]⟩

/-- The footer does not rule out the key.  At the end of time no instant rules out anything. -/
def Segment.mightContain (s : Segment) (key : BusinessKey) : Bool :=
  s.keyStats.mightContain (.eq .businessKey (.bytes key)) systemTimeOpen

/-- The versions of a key in open segments; a segment that the footer rules out is not read. -/
def SealedSegments.versionsFor (readers : List Segment) (validTime : Bool) (key : BusinessKey) :
    Except EngineError (List Version) :=
  List.flatten <$> readers.mapM fun s =>
    if s.mightContain key then
      (List.filter fun v => v.businessKey = key) <$> s.readVersions validTime
    else .ok []

/-- A staged version with the interval in front of its payload taken off. -/
def Version.unframe (v : Version) : Except EngineError Version :=
  match v.payload with
  | none => .ok v
  | some stored =>
    match unframePayload true stored with
    | .ok (_, bare) => .ok { v with payload := some bare }
    | .error e => .error (.dml (.resolve e))

namespace Engine

/-- Open the live segments. -/
def openSegmentReaders (e : Engine) : Except EngineError (List Segment) :=
  e.liveSegments.mapM fun i => (e.segments[i]?).elim (.error .segment) .ok

/-- What the delta tier has of a key, or of all. -/
def stagedHistory (e : Engine) (key : Option BusinessKey) : Except EngineError (List Version) :=
  let delta := key.elim e.tiers.delta.stagedVersions e.tiers.delta.candidateVersions
  if e.writer.validTime then delta.mapM Version.unframe else .ok delta

/-- What open segments have of a key, or of all. -/
def sealedHistory (e : Engine) (readers : List Segment) :
    Option BusinessKey → Except EngineError (List Version)
  | some key => SealedSegments.versionsFor readers e.writer.validTime key
  | none => List.flatten <$> readers.mapM fun s => s.readVersions e.writer.validTime

/-- Every version of a key, or of all, with its resolved period: by key, then in chain order. -/
def versionHistory (e : Engine) (key : Option BusinessKey) : Except EngineError (List Version) := do
  let readers ← e.openSegmentReaders
  let delta ← e.stagedHistory key
  let sealedVersions ← e.sealedHistory readers key
  pure ((foldChains (delta ++ sealedVersions) e.tiers.index).toList.flatMap fun entry =>
    entry.2.values)

end Engine

/-! ### What is stored is read back -/

/-- The payload carries an interval. -/
def Version.Framed (v : Version) : Prop :=
  ∃ (i : ValidInterval) (user : Bytes), v.payload = some (i.encodePrefix ++ user)

/-- The version without the interval in front of its payload. -/
def Version.bare (v : Version) : Version :=
  { v with payload := v.payload.map (List.drop validTimePrefixLen) }

namespace Version

variable {v : Version}

@[simp] theorem bare_id (v : Version) : v.bare.id = v.id := rfl

@[simp] theorem bare_pos (v : Version) : v.bare.pos = v.pos := rfl

@[simp] theorem bare_businessKey (v : Version) : v.bare.businessKey = v.businessKey := rfl

theorem bare_stamp (v : Version) (ci : Option ClosedInterval) :
    v.bare.stamp ci = (v.stamp ci).bare := by
  cases ci <;> rfl

theorem Framed.of_payload {w : Version} (h : v.Framed) (heq : w.payload = v.payload) :
    w.Framed := by
  obtain ⟨i, user, hv⟩ := h
  exact ⟨i, user, heq.trans hv⟩

/-- The interval does not come off unnoticed. -/
theorem Framed.bare_ne (h : v.Framed) : v.bare ≠ v := by
  obtain ⟨i, user, hv⟩ := h
  intro heq
  have hpay : v.payload.map (List.drop validTimePrefixLen) = v.payload := congrArg payload heq
  rw [hv, Option.map_some, Option.some.injEq] at hpay
  have hlen := congrArg List.length hpay
  rw [List.length_drop, List.length_append, ValidInterval.length_encodePrefix,
    validTimePrefixLen] at hlen
  omega

/-- The interval in front of a framed payload, and the rest. -/
theorem decodePrefix_encodePrefix (i : ValidInterval) (user : Bytes) :
    ValidInterval.decodePrefix (i.encodePrefix ++ user) = .ok (i.start, i.stop) ∧
      unframePayload true (i.encodePrefix ++ user) = .ok (some (i.start, i.stop), user) := by
  obtain ⟨framed, hframed, hun⟩ := unframePayload_framePayload i (some user)
  rw [framePayload, Except.ok.injEq, Option.some.injEq] at hframed
  subst hframed
  rw [Option.getD_some] at hun
  refine ⟨?_, hun⟩
  rw [unframePayload, if_pos rfl] at hun
  cases hd : ValidInterval.decodePrefix (i.encodePrefix ++ user) with
  | error e =>
    rw [hd] at hun
    cases hun
  | ok pair =>
    rw [hd, Except.ok.injEq, Prod.mk.injEq, Option.some.injEq] at hun
    rw [hun.1]

theorem Framed.unframe (h : v.Framed) : v.unframe = .ok v.bare := by
  obtain ⟨i, user, hv⟩ := h
  rw [Version.unframe, hv]
  simp only [(decodePrefix_encodePrefix i user).2]
  rw [bare, hv, Option.map_some, List.drop_left' (ValidInterval.length_encodePrefix i)]

end Version

/-- **A row of a segment is read back as it was stored**, interval in front. -/
theorem SealedRow.version_ofVersion {v : Version} (hv : v.Framed)
    (hopen : v.sysTo = systemTimeOpen ∧ v.closedBy = none) :
    ∃ r, SealedRow.ofVersion true v = .ok r ∧ r.version = v := by
  obtain ⟨i, user, hpay⟩ := hv
  obtain ⟨key, sysFrom, seq, sysTo, provenance, closedBy, payload⟩ := v
  obtain ⟨rfl, rfl⟩ := hopen
  obtain rfl : payload = some (i.encodePrefix ++ user) := hpay
  have hlen : ¬ (i.encodePrefix ++ user).length < validTimePrefixLen := by
    rw [List.length_append, ValidInterval.length_encodePrefix]
    omega
  refine ⟨⟨key, sysFrom, seq, some user, provenance, some (i.start, i.stop)⟩, ?_, rfl⟩
  simp only [SealedRow.ofVersion, if_true, decodeValidPair, extractBytes, if_neg hlen,
    (Version.decodePrefix_encodePrefix i user).1,
    List.drop_left' (ValidInterval.length_encodePrefix i)]
  rfl

/-- What a segment holds is read back, if the reader accepts it. -/
theorem Segment.readVersions_eq {s : Segment} (hread : s.Readable) (h : ∀ v ∈ s.versions,
    v.Framed ∧ v.sysTo = systemTimeOpen ∧ v.closedBy = none) :
    s.readVersions true = .ok s.versions := by
  have hrows : ∀ l : List Version,
      (∀ v ∈ l, v.Framed ∧ v.sysTo = systemTimeOpen ∧ v.closedBy = none) →
      ∃ rows, l.mapM (SealedRow.ofVersion true) = .ok rows ∧ rows.map SealedRow.version = l := by
    intro l hl
    induction l with
    | nil => exact ⟨[], rfl, rfl⟩
    | cons v l ih =>
      obtain ⟨hv, hopen⟩ := hl v List.mem_cons_self
      obtain ⟨r, hr, hrv⟩ := SealedRow.version_ofVersion hv hopen
      obtain ⟨rows, hrows, hmap⟩ := ih fun w hw => hl w (List.mem_cons_of_mem _ hw)
      refine ⟨r :: rows, ?_, by rw [List.map_cons, hrv, hmap]⟩
      rw [List.mapM_cons, hr, hrows]
      rfl
  obtain ⟨rows, hm, hmap⟩ := hrows s.versions h
  simp only [Segment.readVersions, if_pos hread, hm, hmap]

/-- **The key range of a segment does not rule out its own keys.** -/
theorem Segment.mightContain_of_mem {s : Segment} {v : Version} (hv : v ∈ s.versions) :
    s.mightContain v.businessKey = true := by
  rw [Segment.mightContain, Segment.keyStats]
  cases hb : encodeBytesValues (s.versions.map fun v => some v.businessKey) with
  | error e => rfl
  | ok stats =>
    obtain ⟨lo, hlo, hleast⟩ := (statsOf_bytes hb).least (.bytes v.businessKey)
      ⟨_, List.mem_map.2 ⟨v, hv, rfl⟩, rfl⟩
    obtain ⟨hi, hhi, hgreatest⟩ := (statsOf_bytes hb).greatest (.bytes v.businessKey)
      ⟨_, List.mem_map.2 ⟨v, hv, rfl⟩, rfl⟩
    have hcov : (⟨lo, hi⟩ : ColumnZone).Covers (.bytes v.businessKey) := ⟨hleast, hgreatest⟩
    have hcolumns : (StatMap.fromBounds
        [(.businessKey, stats.1.toEnd .bytes, stats.2.toEnd .bytes)]) =
        ⟨[(.businessKey, ⟨lo, hi⟩)]⟩ := by
      rw [hlo, hhi, StatMap.fromBounds]
      simp
    simp only [hcolumns]
    have hbelow := hcov.not_prunesBelow (ZoneBound.Le.refl _)
    have habove := hcov.not_prunesAbove (ZoneBound.Le.refl _)
    simp [StatMap.mightContain, StatMap.snapshotOverlaps, StatMap.satisfies, StatMap.column, hbelow,
      habove]

/-! ### Chains of one key -/

/-- Values folded into a map evict those of their keys. -/
theorem KeyedMap.mem_insertAll_evicting {κ ν : Type*} [LinearOrder κ] {key : ν → κ}
    {m : KeyedMap key} {l : List ν} {w : ν} (h : ∀ a ∈ l, ∀ b ∈ l, key a = key b → a = b) :
    w ∈ m.insertAll l ↔ w ∈ l ∨ (w ∈ m ∧ ∀ u ∈ l, key u ≠ key w) := by
  induction l generalizing m with
  | nil => simp [KeyedMap.insertAll]
  | cons b l ih =>
    change w ∈ (m.insert b).insertAll l ↔ _
    rw [ih fun x hx y hy => h x (List.mem_cons_of_mem _ hx) y (List.mem_cons_of_mem _ hy),
      KeyedMap.mem_insert, List.mem_cons, List.forall_mem_cons]
    constructor
    · rintro (hl | ⟨rfl | ⟨hm, hne⟩, hrest⟩)
      · exact .inl (.inr hl)
      · exact .inl (.inl rfl)
      · exact .inr ⟨hm, fun heq => hne heq.symm, hrest⟩
    · rintro ((rfl | hl) | ⟨hm, hne, hrest⟩)
      · -- a later value of the same key is the same value
        by_cases hin : w ∈ l
        · exact .inl hin
        · refine .inr ⟨.inl rfl, fun u hu hk => hin ?_⟩
          rwa [← h u (List.mem_cons_of_mem _ hu) w List.mem_cons_self hk]
      · exact .inl hl
      · exact .inr ⟨.inr ⟨hm, fun heq => hne heq.symm⟩, hrest⟩

/-- A map with one entry. -/
theorem OrdMap.toList_eq_singleton {κ ν : Type*} [LinearOrder κ] {m : OrdMap κ ν} {k : κ} {v : ν}
    (hk : m[k]? = some v) (h : ∀ k', k' ≠ k → m[k']? = none) : m.toList = [(k, v)] := by
  have hnd : m.toList.Nodup :=
    m.toList_pairwise.imp fun {a b} hab heq => absurd hab (by rw [heq]; exact lt_irrefl _)
  refine List.perm_singleton.1 ((List.perm_ext_iff_of_nodup hnd (List.nodup_singleton _)).2 ?_)
  rintro ⟨k', v'⟩
  rw [OrdMap.mem_toList, List.mem_singleton]
  constructor
  · intro hv
    by_cases hkk : k' = k
    · subst hkk
      rw [hk] at hv
      cases hv
      rfl
    · rw [h k' hkk] at hv
      cases hv
  · intro heq
    cases heq
    exact hk

/-- The chains of versions of one key are one chain, or none. -/
theorem values_foldChains {l : List Version} {ix : ValidityIndex} {key : BusinessKey}
    (hw : ix.WriteOnce) (hl : ∀ v ∈ l, v.businessKey = key) :
    (foldChains l ix).toList.flatMap (fun entry => entry.2.values) =
      ((KeyedMap.ofList l : VersionChain).mapValues (fun v => v.stamp (ix.closeOf v.id))
        fun v => v.stamp_pos _).values := by
  by_cases hnil : l = []
  · subst hnil
    have hempty : (KeyedMap.ofList [] : VersionChain) = KeyedMap.empty := rfl
    have hvals : ((KeyedMap.empty : VersionChain).mapValues (fun v => v.stamp (ix.closeOf v.id))
        fun v => v.stamp_pos _).values = [] :=
      KeyedMap.values_eq List.Pairwise.nil fun v => by simp [KeyedMap.mem_mapValues]
    rw [hempty, hvals]
    simp [foldChains, groupChains]
  · obtain ⟨raw, hraw⟩ := List.exists_mem_of_ne_nil l hnil
    obtain ⟨chain, hchain⟩ := exists_chain hraw ix
    rw [hl raw hraw] at hchain
    have hsingle : (foldChains l ix).toList = [(key, chain)] := by
      refine OrdMap.toList_eq_singleton hchain fun k hk => ?_
      rw [foldChains, OrdMap.getElem?_map, groupChains_eq_none_iff.2, Option.map_none]
      exact fun v hv heq => hk (heq.symm.trans (hl v hv))
    rw [hsingle, List.flatMap_singleton]
    congr 1
    -- the chain is that of the list, and the index answers by identity
    rw [foldChains, OrdMap.getElem?_map, Option.map_eq_some_iff] at hchain
    obtain ⟨group, hgroup, rfl⟩ := hchain
    have hkey : key ∈ (groupChains l).keys := by
      rw [← Std.ExtTreeMap.map_fst_toList_eq_keys]
      exact List.mem_map.2 ⟨(key, group), OrdMap.mem_toList.2 hgroup, rfl⟩
    have hgetD := getD_groupChains l key
    rw [hgroup, Option.getD_some, List.filter_eq_self.2 fun v hv => by simp [hl v hv]] at hgetD
    subst hgetD
    refine KeyedMap.ext_mem fun v => ?_
    rw [KeyedMap.mem_mapValues, KeyedMap.mem_mapValues]
    refine exists_congr fun w => and_congr_right fun hw' => ?_
    have hwk : w.businessKey = key := hl w (KeyedMap.mem_of_mem_ofList hw')
    rw [ValidityIndex.getElem?_closesForKeys hw hkey, ← hwk]
    rfl

/-! ### The listing -/

theorem KeyPeriod.resolved_id (k : BusinessKey) (p : KeyPeriod) :
    (KeyPeriod.resolved k p).id = (KeyPeriod.version k p).id := by
  rw [KeyPeriod.resolved]
  cases p.ending <;> rfl

namespace Engine

/-- The stored versions of a key with their resolved periods, in chain order. -/
def timeline (e : Engine) (key : BusinessKey) : List Version :=
  (resolvedChain (e.tiers.delta.candidateVersions key) (versionsFor e.sealedVersions key)
    e.tiers.index key).values

/-- How the listing shows a version of the timeline: as stored if a segment has it, else bare. -/
def shown (e : Engine) (v : Version) : Version :=
  if v.id ∈ e.sealedVersions.map Version.id then v else v.bare

/-- An engine of a table with a valid-time axis that stores the histories `H`, and whose segment
files have what it holds as sealed. -/
structure ValidTable (e : Engine) (H : History) : Prop where
  policy : e.writer.validTime = true
  stores : Stores e.tiers e.sealedVersions H
  read : ∃ s, readSegments e.segments e.liveSegments = some s ∧
    ∀ v, v ∈ s.versions ↔ v ∈ e.sealedVersions
  framed : ∀ v, H.Asserts v → v.Framed

variable {e : Engine} {H : History}

theorem timeline_eq (h : Stores e.tiers e.sealedVersions H) (k : BusinessKey) :
    e.timeline k = ((H.periodsOf k).map (KeyPeriod.resolved k)).reverse :=
  Stores.chain_eq (t := { tiers := e.tiers, sealedVersions := e.sealedVersions }) h k

@[simp] theorem shown_pos (e : Engine) (v : Version) : (e.shown v).pos = v.pos := by
  rw [shown]
  split <;> rfl

theorem shown_resolved (e : Engine) (k : BusinessKey) (p : KeyPeriod) :
    e.shown (KeyPeriod.resolved k p) =
      if (KeyPeriod.version k p).id ∈ e.sealedVersions.map Version.id then KeyPeriod.resolved k p
      else (KeyPeriod.resolved k p).bare := by
  rw [shown, KeyPeriod.resolved_id]

/-- The readers of the live segments. -/
theorem openSegmentReaders_of_read {s : Segment} {files : SegmentFiles} {is : List ℕ}
    (h : readSegments files is = some s) :
    ∃ readers, (is.mapM fun i => (files[i]?).elim (.error EngineError.segment) Except.ok) =
        .ok readers ∧ (∀ r ∈ readers, r.Readable) ∧
          ∀ v, v ∈ s.versions ↔ ∃ r ∈ readers, v ∈ r.versions := by
  induction is generalizing s with
  | nil =>
    cases h
    exact ⟨[], rfl, fun r hr => absurd hr List.not_mem_nil, fun v => by simp⟩
  | cons i is ih =>
    rw [readSegments] at h
    obtain ⟨r, hr, h⟩ := Option.bind_eq_some_iff.1 h
    obtain ⟨rest, hrest, h⟩ := Option.bind_eq_some_iff.1 h
    cases h
    obtain ⟨hr, hread⟩ := readSegment_eq_some.1 hr
    obtain ⟨readers, hreaders, hall, hmem⟩ := ih hrest
    refine ⟨r :: readers, ?_, List.forall_mem_cons.2 ⟨hread, hall⟩, fun v => ?_⟩
    · rw [List.mapM_cons, hr, Option.elim_some, hreaders]
      rfl
    · rw [List.mem_append, hmem]
      simp

namespace ValidTable

/-- A version of the table is open, as every stored version is. -/
theorem open_of_asserts {v : Version} (hv : H.Asserts v) :
    v.sysTo = systemTimeOpen ∧ v.closedBy = none := by
  obtain ⟨k, p, -, rfl⟩ := hv
  exact ⟨rfl, rfl⟩

/-- What the listing takes from the delta tier: the staged versions, bare. -/
theorem stagedHistory_eq (h : e.ValidTable H) (k : BusinessKey) :
    e.stagedHistory (some k) = .ok ((e.tiers.delta.candidateVersions k).map Version.bare) := by
  rw [stagedHistory, h.policy, if_pos rfl, Option.elim_some]
  refine mapM_of_forall fun v hv => ?_
  have hheld := (Delta.mem_candidateVersions.1 hv).1
  exact (h.framed v ((h.stores.represents.holds v).1 (.inl hheld))).unframe

/-- What the listing takes from the segments: the sealed versions, as they were stored. -/
theorem sealedHistory_eq (h : e.ValidTable H) (k : BusinessKey) :
    ∃ readers vs, e.openSegmentReaders = .ok readers ∧ e.sealedHistory readers (some k) = .ok vs ∧
      ∀ v, v ∈ vs ↔ v ∈ e.sealedVersions ∧ v.businessKey = k := by
  obtain ⟨s, hs, hsv⟩ := h.read
  obtain ⟨readers, hreaders, hread, hmem⟩ := openSegmentReaders_of_read hs
  have hstored : ∀ r ∈ readers, ∀ v ∈ r.versions,
      v.Framed ∧ v.sysTo = systemTimeOpen ∧ v.closedBy = none := by
    intro r hr v hv
    have hA : H.Asserts v :=
      (h.stores.represents.holds v).1 (.inr ((hsv v).1 ((hmem v).2 ⟨r, hr, hv⟩)))
    exact ⟨h.framed v hA, open_of_asserts hA⟩
  have hall : ∀ r ∈ readers,
      (if r.mightContain k then
        (List.filter fun v => v.businessKey = k) <$> r.readVersions e.writer.validTime
      else .ok []) = .ok (r.versions.filter fun v => v.businessKey = k) := by
    intro r hr
    by_cases hmay : r.mightContain k = true
    · rw [if_pos hmay, h.policy, Segment.readVersions_eq (hread r hr) (hstored r hr)]
      rfl
    · rw [if_neg hmay]
      refine congrArg Except.ok (List.filter_eq_nil_iff.2 fun v hv heq => hmay ?_).symm
      rw [← of_decide_eq_true heq]
      exact Segment.mightContain_of_mem hv
  refine ⟨readers, (readers.map fun r => r.versions.filter fun v => v.businessKey = k).flatten,
    hreaders, ?_, fun v => ?_⟩
  · rw [sealedHistory, SealedSegments.versionsFor, mapM_of_forall hall]
    rfl
  · rw [← hsv, hmem]
    simp only [List.mem_flatten, List.mem_map]
    constructor
    · rintro ⟨_, ⟨r, hr, rfl⟩, hv⟩
      obtain ⟨hv, hk⟩ := List.mem_filter.1 hv
      exact ⟨⟨r, hr, hv⟩, of_decide_eq_true hk⟩
    · rintro ⟨⟨r, hr, hv⟩, hk⟩
      exact ⟨_, ⟨r, hr, rfl⟩, List.mem_filter.2 ⟨hv, by simp [hk]⟩⟩

end ValidTable

/-- **The listing of a key** is its timeline, with the bare payload of what is staged and the stored
payload of what is sealed. -/
theorem versionHistory_eq (h : e.ValidTable H) (k : BusinessKey) :
    e.versionHistory (some k) = .ok ((e.timeline k).map e.shown) := by
  obtain ⟨readers, vs, hreaders, hvs, hmem⟩ := h.sealedHistory_eq k
  have hdelta := h.stagedHistory_eq k
  simp only [versionHistory, hreaders, hdelta, hvs, bind, Except.bind, pure, Except.pure]
  refine congrArg Except.ok ?_
  have hkeys : ∀ v ∈ (e.tiers.delta.candidateVersions k).map Version.bare ++ vs,
      v.businessKey = k := by
    intro v hv
    rcases List.mem_append.1 hv with hv | hv
    · obtain ⟨w, hw, rfl⟩ := List.mem_map.1 hv
      exact (Delta.mem_candidateVersions.1 hw).2
    · exact ((hmem v).1 hv).2
  rw [values_foldChains h.stores.writeOnce hkeys]
  -- the table's versions of the key are those of its periods
  have hperiod : ∀ v, (e.tiers.delta.Holds v ∨ v ∈ e.sealedVersions) → v.businessKey = k →
      ∃ p ∈ H.periodsOf k, KeyPeriod.version k p = v := by
    intro v hv hk
    obtain ⟨k', p, hp, rfl⟩ := (h.stores.represents.holds v).1 hv
    rw [KeyPeriod.version_businessKey] at hk
    subst hk
    exact ⟨p, hp, rfl⟩
  have hsame : ∀ a ∈ vs, ∀ b ∈ vs, a.pos = b.pos → a = b := by
    intro a ha b hb hpos
    obtain ⟨ha, hak⟩ := (hmem a).1 ha
    obtain ⟨hb, hbk⟩ := (hmem b).1 hb
    exact h.stores.represents.consistent h.stores.wellFormed (.inr ha) (.inr hb)
      (Version.id_eq_iff.2 ⟨hak.trans hbk.symm, hpos⟩)
  have hlist : ∀ w, w ∈ (KeyedMap.ofList
      ((e.tiers.delta.candidateVersions k).map Version.bare ++ vs) : VersionChain) ↔
      w ∈ vs ∨ ((∃ raw ∈ e.tiers.delta.candidateVersions k, raw.bare = w) ∧
        ∀ u ∈ vs, u.pos ≠ w.pos) := by
    intro w
    rw [KeyedMap.ofList, KeyedMap.insertAll, List.foldl_append]
    change w ∈ KeyedMap.insertAll (KeyedMap.ofList _) vs ↔ _
    rw [KeyedMap.mem_insertAll_evicting hsame, KeyedMap.mem_ofList, List.mem_map]
    intro a ha b hb hpos
    obtain ⟨raw, hraw, rfl⟩ := List.mem_map.1 ha
    obtain ⟨raw', hraw', rfl⟩ := List.mem_map.1 hb
    obtain ⟨hheld, hk⟩ := Delta.mem_candidateVersions.1 hraw
    obtain ⟨hheld', hk'⟩ := Delta.mem_candidateVersions.1 hraw'
    rw [h.stores.represents.consistent h.stores.wellFormed (.inl hheld) (.inl hheld')
      (Version.id_eq_iff.2 ⟨hk.trans hk'.symm, hpos⟩)]
  refine KeyedMap.values_eq ?_ fun v => ?_
  · rw [List.pairwise_map]
    exact (KeyedMap.values_pairwise _).imp fun {a b} hab => by rwa [shown_pos, shown_pos]
  · rw [KeyedMap.mem_mapValues, List.mem_map, timeline_eq h.stores]
    simp only [List.mem_reverse, List.mem_map, exists_exists_and_eq_and, hlist]
    constructor
    · rintro ⟨w, hw | ⟨⟨raw, hraw, rfl⟩, hnone⟩, rfl⟩
      · obtain ⟨hs, hk⟩ := (hmem w).1 hw
        obtain ⟨p, hp, rfl⟩ := hperiod w (.inr hs) hk
        refine ⟨p, hp, ?_⟩
        rw [h.stores.represents.stamp_eq hp, shown_resolved, if_pos (List.mem_map_of_mem hs)]
      · obtain ⟨hheld, hk⟩ := Delta.mem_candidateVersions.1 hraw
        obtain ⟨p, hp, rfl⟩ := hperiod raw (.inl hheld) hk
        refine ⟨p, hp, ?_⟩
        rw [Version.bare_stamp, Version.bare_id, h.stores.represents.stamp_eq hp, shown_resolved,
          if_neg]
        intro hid
        obtain ⟨u, hu, huid⟩ := List.mem_map.1 hid
        obtain ⟨huk, hpos⟩ := Version.id_eq_iff.1 huid
        exact hnone u ((hmem u).2 ⟨hu, huk⟩) hpos
    · rintro ⟨p, hp, rfl⟩
      rw [shown_resolved]
      by_cases hid : (KeyPeriod.version k p).id ∈ e.sealedVersions.map Version.id
      · obtain ⟨u, hu, huid⟩ := List.mem_map.1 hid
        have huv : u = KeyPeriod.version k p :=
          h.stores.represents.consistent h.stores.wellFormed (.inr hu)
            ((h.stores.represents.holds _).2 ⟨k, p, hp, rfl⟩) huid
        rw [huv] at hu
        refine ⟨KeyPeriod.version k p, .inl ((hmem _).2 ⟨hu, rfl⟩), ?_⟩
        rw [if_pos hid, h.stores.represents.stamp_eq hp]
      · have hheld : e.tiers.delta.Holds (KeyPeriod.version k p) :=
          ((h.stores.represents.holds _).2 ⟨k, p, hp, rfl⟩).resolve_right fun hs =>
            hid (List.mem_map_of_mem hs)
        refine ⟨(KeyPeriod.version k p).bare, .inr
          ⟨⟨_, Delta.mem_candidateVersions.2 ⟨hheld, rfl⟩, rfl⟩, fun u hu hpos => hid ?_⟩, ?_⟩
        · obtain ⟨hu, huk⟩ := (hmem u).1 hu
          have huid : u.id = (KeyPeriod.version k p).id := Version.id_eq_iff.2 ⟨huk, hpos⟩
          rw [← huid]
          exact List.mem_map_of_mem hu
        · rw [if_neg hid, Version.bare_stamp, Version.bare_id, h.stores.represents.stamp_eq hp]

end Engine

end SteleDb
