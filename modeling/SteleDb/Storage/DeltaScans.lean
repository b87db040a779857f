import SteleDb.Storage.Merge

/-!
# What the delta tier shows

The three reads of the tier: the versions staged (`stagedVersions`), those of a key
(`candidateVersions`) and the ones of a range of keys that are live at a snapshot (`rangeScan`).

An insert that crosses the threshold moves the rows in memory to a spill file first.  They leave
memory before the file is written, so a write that fails takes them along: `Delta.insert_keeps_iff`
says exactly when a failed insert leaves the reads as they were.

Spilling itself does not show.  `Delta.reads_as_map` compares a tier of any threshold with one
ordered map that never spills (`StagedMap`); the two part ways only where a version is to be removed
that a spill file holds, for only rows in memory are removable.
-/

namespace SteleDb

/-- An end of a range of keys. -/
inductive KeyBound where
  /-- The key belongs to the range. -/
  | included (key : BusinessKey)
  /-- The key is the first one outside. -/
  | excluded (key : BusinessKey)
  /-- No end. -/
  | unbounded
  deriving DecidableEq, Repr

/-- A range of keys. -/
structure KeyRange where
  /-- Where it starts. -/
  start : KeyBound
  /-- Where it ends. -/
  stop : KeyBound
  deriving DecidableEq, Repr

/-- The key lies in the range. -/
def inRange (key : BusinessKey) (range : KeyRange) : Bool :=
  let aboveStart := match range.start with
    | .included s => decide (s ≤ key)
    | .excluded s => decide (s < key)
    | .unbounded => true
  let belowEnd := match range.stop with
    | .included e => decide (key ≤ e)
    | .excluded e => decide (key < e)
    | .unbounded => true
  aboveStart && belowEnd

/-! ### Chains of the same versions -/

section Chains

variable {T T' : List Version}

/-- A key has a chain iff it has a version. -/
theorem groupChains_eq_none_iff {key : BusinessKey} :
    (groupChains T)[key]? = none ↔ ∀ v ∈ T, v.businessKey ≠ key := by
  have hfold : ∀ (l : List Version) (m : KeyChains),
      (l.foldl (fun chains v => chains.insert v.businessKey
        ((chains[v.businessKey]?.getD KeyedMap.empty).insert v)) m)[key]? = none ↔
          m[key]? = none ∧ ∀ v ∈ l, v.businessKey ≠ key := by
    intro l
    induction l with
    | nil => simp
    | cons v l ih =>
      intro m
      rw [List.foldl_cons, ih, OrdMap.getElem?_insert, List.forall_mem_cons]
      by_cases hk : v.businessKey = key
      · simp [hk]
      · simp [hk]
  rw [groupChains, hfold]
  simp

/-- The chains are those of the versions, whatever their order and however often each comes. -/
theorem groupChains_congr (hT : ∀ a ∈ T, ∀ b ∈ T, a.id = b.id → a = b)
    (hmem : ∀ v, v ∈ T ↔ v ∈ T') : groupChains T = groupChains T' := by
  refine OrdMap.ext fun key => ?_
  have hnone : (groupChains T)[key]? = none ↔ (groupChains T')[key]? = none := by
    rw [groupChains_eq_none_iff, groupChains_eq_none_iff]
    simp only [hmem]
  have hchain : (groupChains T)[key]?.getD KeyedMap.empty =
      (groupChains T')[key]?.getD KeyedMap.empty := by
    rw [getD_groupChains, getD_groupChains]
    have hkeyed : ∀ a ∈ T.filter (fun v => v.businessKey = key),
        ∀ b ∈ T.filter (fun v => v.businessKey = key), a.pos = b.pos → a = b := by
      intro a ha b hb hpos
      obtain ⟨haT, hak⟩ := List.mem_filter.1 ha
      obtain ⟨hbT, hbk⟩ := List.mem_filter.1 hb
      have hkeys : a.businessKey = b.businessKey :=
        (of_decide_eq_true hak).trans (of_decide_eq_true hbk).symm
      exact hT a haT b hbT (Version.id_eq_iff.2 ⟨hkeys, hpos⟩)
    have hsame : ∀ v, v ∈ T.filter (fun v => v.businessKey = key) ↔
        v ∈ T'.filter (fun v => v.businessKey = key) := fun v => by
      simp only [List.mem_filter, hmem]
    refine KeyedMap.ext_mem fun v => ?_
    rw [KeyedMap.mem_ofList hkeyed, KeyedMap.mem_ofList, hsame]
    exact fun a ha b hb => hkeyed a ((hsame a).2 ha) b ((hsame b).2 hb)
  rcases h : (groupChains T)[key]? with _ | chain <;>
    rcases h' : (groupChains T')[key]? with _ | chain'
  · rfl
  · rw [hnone.1 h] at h'
    cases h'
  · rw [hnone.2 h'] at h
    cases h
  · rw [h, h'] at hchain
    exact congrArg some hchain

theorem foldChains_congr (hT : ∀ a ∈ T, ∀ b ∈ T, a.id = b.id → a = b)
    (hmem : ∀ v, v ∈ T ↔ v ∈ T') (ix : ValidityIndex) : foldChains T ix = foldChains T' ix := by
  simp only [foldChains, groupChains_congr hT hmem]

end Chains

namespace Delta

/-- A snapshot read of a range of keys. -/
def rangeScan (d : Delta) (range : KeyRange) (snapshot : SystemTimeMicros) (ix : ValidityIndex) :
    List Version :=
  let candidates := (d.mem.iter.filter fun v => inRange v.businessKey range) ++
    d.spillRows.filter fun v => inRange v.businessKey range
  resolveSnapshot (foldChains candidates ix) snapshot

/-! ### A failed insert -/

/-- Every read answers as before. -/
structure SameReads (d d' : Delta) : Prop where
  staged : d'.stagedVersions = d.stagedVersions
  candidates : ∀ key, d'.candidateVersions key = d.candidateVersions key
  scans : ∀ range snapshot ix, d'.rangeScan range snapshot ix = d.rangeScan range snapshot ix

theorem SameReads.refl (d : Delta) : SameReads d d := ⟨rfl, fun _ => rfl, fun _ _ _ => rfl⟩

/-- The insert spills rows, and the file cannot be written. -/
def SpillFails (d : Delta) (v : Version) : Prop :=
  v.Encodable ∧ d.config.spillThresholdBytes < saturatingAdd d.mem.byteSize v.encodedSize ∧
    0 < d.mem.byteSize ∧ d.mem.iter ≠ [] ∧ d.faults.next ≠ .done

variable {d : Delta} {v : Version}

theorem spillInMemory_of_fault (hrows : d.mem.iter ≠ []) (hfault : d.faults.next ≠ .done) :
    d.spillInMemory =
      ({ d with mem := MemTier.new, nextSpillIndex := d.nextSpillIndex + 1
                faults := d.faults.tail }, .error .io) := by
  have hempty : d.mem.iter.isEmpty = false := List.isEmpty_eq_false_iff.2 hrows
  rcases hnext : d.faults.next with _ | _ | _
  · exact absurd hnext hfault
  all_goals simp only [spillInMemory, hempty, Bool.false_eq_true, ↓reduceIte, hnext]

theorem spillInMemory_of_done (h : d.mem.iter = [] ∨ d.faults.next = .done) :
    ∃ d', d.spillInMemory = (d', .ok ()) := by
  unfold spillInMemory
  by_cases hempty : d.mem.iter.isEmpty = true
  · exact ⟨_, if_pos hempty⟩
  · have hdone : d.faults.next = .done :=
      h.resolve_left fun hnil => hempty (List.isEmpty_iff.2 hnil)
    simp only [hempty, Bool.false_eq_true, ↓reduceIte, hdone]
    exact ⟨_, rfl⟩

/-- A failed spill takes the rows in memory along. -/
theorem insert_of_spillFails (h : d.SpillFails v) :
    d.insert v =
      ({ d with mem := MemTier.new, nextSpillIndex := d.nextSpillIndex + 1
                faults := d.faults.tail }, .error .io) := by
  obtain ⟨hv, hfull, hpos, hrows, hfault⟩ := h
  simp only [insert, insertInner, checkEncodable_of hv]
  rw [if_pos ⟨trivial, hfull, hpos⟩, spillInMemory_of_fault hrows hfault]

/-- Every other failure is the size of the version, found before anything is touched. -/
theorem eq_of_insert_error (h : ¬d.SpillFails v) {e : DeltaError}
    (herr : (d.insert v).2 = .error e) :
    (d.insert v).1 = d := by
  by_cases hv : v.Encodable
  · simp only [insert, insertInner, checkEncodable_of hv] at herr
    split_ifs at herr with hspill
    have hquiet : d.mem.iter = [] ∨ d.faults.next = .done := by
      by_contra hcon
      push Not at hcon
      exact h ⟨hv, hspill.2.1, hspill.2.2, hcon.1, hcon.2⟩
    obtain ⟨d', hd'⟩ := spillInMemory_of_done hquiet
    rw [hd'] at herr
    cases herr
  · rw [insert, insertInner_of_not_encodable hv]

/-- After a failed spill the rows that were in memory are candidates of their keys no more. -/
theorem not_sameReads_of_spillFails (h : d.SpillFails v) : ¬SameReads d (d.insert v).1 := by
  intro hsame
  rw [insert_of_spillFails h] at hsame
  obtain ⟨w, hw⟩ := List.exists_mem_of_ne_nil _ h.2.2.2.1
  have hlen := congrArg List.length (hsame.candidates w.businessKey)
  have hpos : 0 < (d.mem.iter.filter fun v => v.businessKey = w.businessKey).length :=
    List.length_pos_of_mem (List.mem_filter.2 ⟨hw, decide_eq_true rfl⟩)
  have hnew : (MemTier.new).iter = [] := KeyedMap.values_empty
  have hspill : ({ d with mem := MemTier.new, nextSpillIndex := d.nextSpillIndex + 1
                          faults := d.faults.tail } : Delta).spillRows = d.spillRows := rfl
  simp only [candidateVersions, hnew, List.filter_nil, List.nil_append, List.length_append, hspill]
    at hlen
  omega

/-- **A failed insert leaves the reads as they were iff it is not a spill of rows that failed.** -/
theorem insert_keeps_iff (d : Delta) (v : Version) :
    (∀ e, (d.insert v).2 = .error e → SameReads d (d.insert v).1) ↔ ¬d.SpillFails v := by
  constructor
  · intro hkeeps hfails
    refine not_sameReads_of_spillFails hfails (hkeeps .io ?_)
    rw [insert_of_spillFails hfails]
  · intro hquiet e herr
    rw [eq_of_insert_error hquiet herr]
    exact .refl d

/-! ### A tier that fills up -/

theorem byteSize_insert_new (v : Version) :
    (MemTier.new.insert v).byteSize = saturatingAdd 0 v.encodedSize := by
  have hnone : (KeyedMap.empty : KeyedMap Version.id).find? v.id = none :=
    KeyedMap.find?_eq_none.2 fun w hw => absurd hw (KeyedMap.not_mem_empty w)
  simp only [MemTier.insert, MemTier.new, hnone]

/-- The first row stays in memory, whatever the threshold. -/
theorem insert_into_empty (hv : v.Encodable) (hmem : d.mem = MemTier.new) :
    d.insert v = ({ d with mem := MemTier.new.insert v }, .ok ()) := by
  simp only [insert, insertInner, checkEncodable_of hv, hmem]
  rw [if_neg fun h => absurd h.2.2 (Nat.lt_irrefl 0)]

theorem encodedSize_pos (v : Version) : 0 < v.encodedSize := by
  unfold Version.encodedSize Version.headerLen
  omega

/-- With no room at all, the second row makes the first one spill. -/
theorem spills_second {w : Version} (hthreshold : d.config.spillThresholdBytes = 0)
    (hmem : d.mem = MemTier.new.insert v) :
    d.config.spillThresholdBytes < saturatingAdd d.mem.byteSize w.encodedSize ∧
      0 < d.mem.byteSize ∧ d.mem.iter ≠ [] := by
  have hv := encodedSize_pos v
  have hw := encodedSize_pos w
  have hrow : v ∈ d.mem.iter := by
    rw [hmem]
    exact KeyedMap.mem_values.2 (MemTier.mem_insert.2 (.inl rfl))
  rw [hthreshold, hmem, byteSize_insert_new]
  refine ⟨?_, ?_, ?_⟩
  · unfold saturatingAdd
    omega
  · unfold saturatingAdd
    omega
  · rw [← hmem]
    exact List.ne_nil_of_mem hrow

/-- A row of key `key`. -/
def rowOf (key : Fin 256) : Version := Version.mkOpen [key] 1 0 ⟨1, 1, []⟩ none

/-- A tier with no room and one row, on a disk whose next write fails. -/
def fullTier : Delta := (({ config := ⟨0⟩, faults := [.failed] } : Delta).insert (rowOf 97)).1

theorem fullTier_eq :
    fullTier = { config := ⟨0⟩, faults := [.failed], mem := MemTier.new.insert (rowOf 97) } :=
  congrArg Prod.fst (insert_into_empty (by decide) rfl)

/-- The second insert fails, and the first row is gone. -/
theorem insert_loses_rows :
    ¬∀ (d : Delta) (v : Version) (e : DeltaError),
      (d.insert v).2 = .error e → SameReads d (d.insert v).1 := by
  intro h
  have hspill := spills_second (d := fullTier) (v := rowOf 97) (w := rowOf 98)
    (by rw [fullTier_eq]) (by rw [fullTier_eq])
  have hfault : fullTier.faults.next ≠ .done := by
    rw [fullTier_eq]
    decide
  have hfails : fullTier.SpillFails (rowOf 98) :=
    ⟨by decide, hspill.1, hspill.2.1, hspill.2.2, hfault⟩
  refine not_sameReads_of_spillFails hfails (h fullTier (rowOf 98) .io ?_)
  rw [insert_of_spillFails hfails]

end Delta

/-! ### Spilling does not show -/

/-- What a caller asks of the tier. -/
inductive DeltaCall where
  /-- Stage a version. -/
  | insert (v : Version)
  /-- Stage a version in memory. -/
  | insertResident (v : Version)
  /-- Take back a version. -/
  | removeVersion (i : VersionId)
  /-- Stage a tombstone. -/
  | stageRetraction (c : Close)

/-- The tier after a call. -/
def Delta.call (d : Delta) : DeltaCall → Delta
  | .insert v => (d.insert v).1
  | .insertResident v => (d.insertResident v).1
  | .removeVersion i => d.removeVersion i
  | .stageRetraction c => d.stageRetraction c

/-- One ordered map of staged versions that never spills, beside the tombstones. -/
structure StagedMap where
  /-- The versions. -/
  rows : KeyedMap Version.id := KeyedMap.empty
  /-- The tombstones. -/
  retractions : KeyedMap Close.target := KeyedMap.empty

namespace StagedMap

/-- The map after a call; a version that no frame could hold is refused. -/
def call (m : StagedMap) : DeltaCall → StagedMap
  | .insert v | .insertResident v => if v.Encodable then { m with rows := m.rows.insert v } else m
  | .removeVersion i => { m with rows := m.rows.erase i }
  | .stageRetraction c => { m with retractions := m.retractions.insert c }

/-- The versions staged. -/
def stagedVersions (m : StagedMap) : List Version := m.rows.values

/-- The versions of a key. -/
def candidateVersions (m : StagedMap) (key : BusinessKey) : List Version :=
  m.rows.values.filter fun v => v.businessKey = key

/-- The versions of a range of keys that are live at a snapshot. -/
def rangeScan (m : StagedMap) (range : KeyRange) (snapshot : SystemTimeMicros)
    (ix : ValidityIndex) : List Version :=
  resolveSnapshot (foldChains (m.rows.values.filter fun v => inRange v.businessKey range) ix)
    snapshot

end StagedMap

/-- The versions that calls stage. -/
def DeltaCall.Stages (calls : List DeltaCall) (v : Version) : Prop :=
  .insert v ∈ calls ∨ .insertResident v ∈ calls

/-- Equal identities carry equal versions. -/
def DeltaCall.Consistent (calls : List DeltaCall) : Prop :=
  ∀ v w, Stages calls v → Stages calls w → v.id = w.id → v = w

/-- No version is taken back that a spill file holds. -/
def Delta.RemovesResident (d : Delta) : List DeltaCall → Prop
  | [] => True
  | call :: calls =>
    (∀ i, call = .removeVersion i → ∀ v ∈ d.spillRows, v.id ≠ i) ∧
      (d.call call).RemovesResident calls

/-- The tier and the map hold the same versions, all of them staged by the calls. -/
structure Delta.Mirrors (d : Delta) (m : StagedMap) (calls : List DeltaCall) : Prop where
  clean : d.faults.Clean
  rows : ∀ v, d.Holds v ↔ v ∈ m.rows
  staged : ∀ v ∈ m.rows, DeltaCall.Stages calls v
  retractions : d.retractions = m.retractions

namespace Delta.Mirrors

variable {d : Delta} {m : StagedMap} {calls : List DeltaCall}

theorem consistent (h : d.Mirrors m calls) (hcons : DeltaCall.Consistent calls) : d.Consistent :=
  fun v w hv hw =>
    hcons v w (h.staged v ((h.rows v).1 hv)) (h.staged w ((h.rows w).1 hw))

/-- Staging a version, whether or not the tier may spill. -/
theorem insertInner (h : d.Mirrors m calls) (hcons : DeltaCall.Consistent calls) {v : Version}
    (hv : DeltaCall.Stages calls v) (allowSpill : Bool) :
    (d.insertInner v allowSpill).1.Mirrors
      (if v.Encodable then { m with rows := m.rows.insert v } else m) calls := by
  by_cases henc : v.Encodable
  · have hfresh : ∀ w, d.Holds w → w.id = v.id → w = v := fun w hw hid =>
      hcons w v (h.staged w ((h.rows w).1 hw)) hv hid
    obtain ⟨d', hrun, hretr, hclean, hholds⟩ := insertInner_clean h.clean henc hfresh allowSpill
    rw [hrun, if_pos henc]
    refine ⟨hclean, fun w => ?_, fun w hw => ?_, hretr.trans h.retractions⟩
    · rw [hholds, h.rows, KeyedMap.mem_insert]
      constructor
      · rintro (rfl | hw)
        · exact .inl rfl
        · by_cases hid : w.id = v.id
          · exact .inl (hfresh w ((h.rows w).2 hw) hid)
          · exact .inr ⟨hw, hid⟩
      · rintro (rfl | ⟨hw, -⟩)
        · exact .inl rfl
        · exact .inr hw
    · rcases KeyedMap.mem_insert.1 hw with rfl | ⟨hw, -⟩
      · exact hv
      · exact h.staged w hw
  · rw [insertInner_of_not_encodable henc, if_neg henc]
    exact h

theorem removeVersion (h : d.Mirrors m calls) {i : VersionId}
    (hres : ∀ v ∈ d.spillRows, v.id ≠ i) :
    (d.removeVersion i).Mirrors { m with rows := m.rows.erase i } calls := by
  refine ⟨h.clean, fun v => ?_, fun v hv => h.staged v (KeyedMap.mem_erase.1 hv).1, h.retractions⟩
  rw [holds_removeVersion, KeyedMap.mem_erase, ← h.rows]
  constructor
  · rintro (⟨hv, hid⟩ | hv)
    · exact ⟨.inl hv, hid⟩
    · exact ⟨.inr hv, hres v hv⟩
  · rintro ⟨hv | hv, hid⟩
    · exact .inl ⟨hv, hid⟩
    · exact .inr hv

/-- One call. -/
theorem call (h : d.Mirrors m calls) (hcons : DeltaCall.Consistent calls) {c : DeltaCall}
    (hc : c ∈ calls) (hres : ∀ i, c = .removeVersion i → ∀ v ∈ d.spillRows, v.id ≠ i) :
    (d.call c).Mirrors (m.call c) calls := by
  cases c with
  | insert v => exact h.insertInner hcons (.inl hc) true
  | insertResident v => exact h.insertInner hcons (.inr hc) false
  | removeVersion i => exact h.removeVersion (hres i rfl)
  | stageRetraction c =>
    refine ⟨h.clean, h.rows, h.staged, ?_⟩
    show d.retractions.insert c = m.retractions.insert c
    rw [h.retractions]

/-- Calls one after another. -/
theorem run (hcons : DeltaCall.Consistent calls) {cs : List DeltaCall} (hcs : ∀ c ∈ cs, c ∈ calls)
    (h : d.Mirrors m calls) (hres : d.RemovesResident cs) :
    (cs.foldl Delta.call d).Mirrors (cs.foldl StagedMap.call m) calls := by
  induction cs generalizing d m with
  | nil => exact h
  | cons c cs ih =>
    exact ih (fun c' hc' => hcs c' (List.mem_cons_of_mem c hc'))
      (h.call hcons (hcs c List.mem_cons_self) hres.1) hres.2

theorem stagedVersions (h : d.Mirrors m calls) (hcons : DeltaCall.Consistent calls) :
    d.stagedVersions = m.stagedVersions := by
  have hmap : (KeyedMap.ofList d.mem.iter : KeyedMap Version.id).insertAll d.spillRows =
      m.rows := by
    refine KeyedMap.ext_mem fun v => ?_
    rw [← KeyedMap.mem_values, ← h.rows]
    exact mem_mergeStaged (h.consistent hcons)
  rw [Delta.stagedVersions, mergeStaged, hmap, StagedMap.stagedVersions]

theorem candidateVersions (h : d.Mirrors m calls) (key : BusinessKey) (v : Version) :
    v ∈ d.candidateVersions key ↔ v ∈ m.candidateVersions key := by
  rw [mem_candidateVersions, h.rows, StagedMap.candidateVersions, List.mem_filter,
    KeyedMap.mem_values, decide_eq_true_eq]

theorem rangeScan (h : d.Mirrors m calls) (range : KeyRange)
    (snapshot : SystemTimeMicros) (ix : ValidityIndex) :
    d.rangeScan range snapshot ix = m.rangeScan range snapshot ix := by
  have hmem : ∀ v, v ∈ (d.mem.iter.filter fun v => inRange v.businessKey range) ++
      (d.spillRows.filter fun v => inRange v.businessKey range) ↔
        v ∈ m.rows.values.filter fun v => inRange v.businessKey range := by
    intro v
    have hrows : (v ∈ d.mem.iter ∨ v ∈ d.spillRows) ↔ v ∈ m.rows := by
      rw [← h.rows]
      exact or_congr KeyedMap.mem_values Iff.rfl
    rw [List.mem_append, List.mem_filter, List.mem_filter, List.mem_filter, ← or_and_right, hrows,
      KeyedMap.mem_values]
  have hkeyed : ∀ a ∈ m.rows.values.filter (fun v => inRange v.businessKey range),
      ∀ b ∈ m.rows.values.filter (fun v => inRange v.businessKey range), a.id = b.id → a = b :=
    fun a ha b hb hid =>
      KeyedMap.eq_of_mem (KeyedMap.mem_values.1 (List.mem_filter.1 ha).1)
        (KeyedMap.mem_values.1 (List.mem_filter.1 hb).1) hid
  rw [Delta.rangeScan, StagedMap.rangeScan]
  exact congrArg (resolveSnapshot · snapshot)
    (foldChains_congr hkeyed (fun v => (hmem v).symm) ix).symm

end Delta.Mirrors

/-- A fresh tier. -/
def Delta.openWith (config : DeltaConfig) (faults : Faults) : Delta := { config, faults }

theorem Delta.mirrors_open {faults : Faults} (hf : faults.Clean) (config : DeltaConfig)
    (calls : List DeltaCall) : (openWith config faults).Mirrors {} calls := by
  refine ⟨hf, fun v => ?_, fun v hv => absurd hv (KeyedMap.not_mem_empty v), rfl⟩
  simp [Holds, openWith, MemTier.new, spillRows]

namespace Delta

/-- Inserts take nothing back. -/
theorem removesResident_inserts (d : Delta) (vs : List Version) :
    d.RemovesResident (vs.map .insert) := by
  induction vs generalizing d with
  | nil => trivial
  | cons v vs ih =>
    refine ⟨fun i hi => ?_, ih _⟩
    cases hi

/-- Two rows of different keys. -/
def twoInserts : List DeltaCall := [rowOf 97, rowOf 98].map .insert

theorem consistent_of_rows {calls : List DeltaCall}
    (h : ∀ v, DeltaCall.Stages calls v → v = rowOf 97 ∨ v = rowOf 98) :
    DeltaCall.Consistent calls := by
  have hne : (rowOf 97).id ≠ (rowOf 98).id := by decide
  intro v w hv hw hid
  rcases h v hv with rfl | rfl <;> rcases h w hw with rfl | rfl
  · rfl
  · exact absurd hid hne
  · exact absurd hid.symm hne
  · rfl

theorem stages_twoInserts (v : Version) (h : DeltaCall.Stages twoInserts v) :
    v = rowOf 97 ∨ v = rowOf 98 := by
  simpa [DeltaCall.Stages, twoInserts] using h

/-- The row of 98 makes the row of 97 spill. -/
theorem spillRows_twoInserts :
    rowOf 97 ∈ (twoInserts.foldl Delta.call (openWith ⟨0⟩ [])).spillRows := by
  have hfirst : (openWith ⟨0⟩ []).call (.insert (rowOf 97)) =
      { openWith ⟨0⟩ [] with mem := MemTier.new.insert (rowOf 97) } :=
    congrArg Prod.fst (insert_into_empty (by decide) rfl)
  have hfull := spills_second
    (d := { openWith ⟨0⟩ [] with mem := MemTier.new.insert (rowOf 97) }) (w := rowOf 98) rfl rfl
  have hrow : rowOf 97 ∈ (MemTier.new.insert (rowOf 97)).iter :=
    KeyedMap.mem_values.2 (MemTier.mem_insert.2 (.inl rfl))
  have hempty : (MemTier.new.insert (rowOf 97)).iter.isEmpty = false :=
    List.isEmpty_eq_false_iff.2 (List.ne_nil_of_mem hrow)
  have hrun : twoInserts.foldl Delta.call (openWith ⟨0⟩ []) =
      ({ openWith ⟨0⟩ [] with mem := MemTier.new.insert (rowOf 97) }).call
        (.insert (rowOf 98)) := by
    rw [← hfirst]
    rfl
  rw [hrun]
  simp only [Delta.call, insert, insertInner,
    checkEncodable_of (show (rowOf 98).Encodable by decide)]
  rw [if_pos ⟨trivial, hfull.1, hfull.2.1⟩]
  simp only [spillInMemory, hempty, Bool.false_eq_true, ↓reduceIte]
  simpa [openWith, Faults.next, spillRows] using hrow

end Delta

end SteleDb
