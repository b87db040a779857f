import SteleDb.Storage.Record

/-!
# The delta tier

The row-oriented tier that takes every write: an in-memory store of open versions, the files its
contents spill to when it grows past a threshold, and the tombstones (`retractions`) waiting for
the next flush.  A version stays visible wherever it sits, so the tier is described by the set of
versions it holds (`Delta.Holds`); `Delta.holds_insertInner` says what an insert does to that set.

A spill file is written in one go: the model keeps its rows beside its index.
-/

namespace SteleDb

/-- Tuning of the delta tier. -/
structure DeltaConfig where
  /-- Spill the in-memory rows before they pass this many bytes. -/
  spillThresholdBytes : ℕ := 64 * 1024 * 1024
  deriving DecidableEq, Repr

/-- Errors of the delta tier. -/
inductive DeltaError where
  /-- The version frame is larger than 16 MiB. -/
  | tooLarge (size : ℕ)
  /-- A spill file could not be written. -/
  | io
  deriving DecidableEq, Repr

/-- The preflight of every insert. -/
def Version.checkEncodable (v : Version) : Except DeltaError Unit :=
  if v.Encodable then .ok () else .error (.tooLarge v.encodedSize)

/-- The in-memory rows with their byte count. -/
structure MemTier where
  /-- The rows, in `(business_key, sys_from, seq)` order. -/
  rows : KeyedMap Version.id
  /-- Encoded size of the rows. -/
  byteSize : ℕ

namespace MemTier

/-- No row. -/
def new : MemTier := ⟨KeyedMap.empty, 0⟩

/-- File a version, replacing the row of the same identity. -/
def insert (m : MemTier) (v : Version) : MemTier :=
  let displaced := match m.rows.find? v.id with
    | some prev => m.byteSize - prev.encodedSize
    | none => m.byteSize
  { rows := m.rows.insert v, byteSize := saturatingAdd displaced v.encodedSize }

/-- Drop the row of an identity. -/
def remove (m : MemTier) (i : VersionId) : MemTier :=
  match m.rows.find? i with
  | some prev => { rows := m.rows.erase i, byteSize := m.byteSize - prev.encodedSize }
  | none => m

/-- The rows in order. -/
def iter (m : MemTier) : List Version := m.rows.values

theorem mem_insert {m : MemTier} {v w : Version} :
    w ∈ (m.insert v).rows ↔ w = v ∨ (w ∈ m.rows ∧ w.id ≠ v.id) :=
  KeyedMap.mem_insert

theorem mem_remove {m : MemTier} {i : VersionId} {w : Version} :
    w ∈ (m.remove i).rows ↔ w ∈ m.rows ∧ w.id ≠ i := by
  unfold remove
  cases h : m.rows.find? i with
  | some prev => exact KeyedMap.mem_erase
  | none => exact ⟨fun hw => ⟨hw, KeyedMap.find?_eq_none.1 h w hw⟩, fun hw => hw.1⟩

end MemTier

/-- The delta tier of one table. -/
structure Delta where
  /-- Tuning. -/
  config : DeltaConfig := {}
  /-- Rows in memory. -/
  mem : MemTier := MemTier.new
  /-- Number of the next spill file. -/
  nextSpillIndex : ℕ := 0
  /-- The live spill files, oldest first, with their rows. -/
  liveSpills : List (ℕ × List Version) := []
  /-- Rows in the live spill files. -/
  spilledRows : ℕ := 0
  /-- Tombstones waiting for the next flush. -/
  retractions : KeyedMap Close.target := KeyedMap.empty
  /-- What the disk does with the next spill writes. -/
  faults : Faults := []

namespace Delta

/-- Move the in-memory rows to a new spill file.  The rows leave memory before the file is
written, so a failed write loses them. -/
def spillInMemory (d : Delta) : Delta × Except DeltaError Unit :=
  let rows := d.mem.iter
  let d := { d with mem := MemTier.new }
  if rows.isEmpty then (d, .ok ())
  else
    let idx := d.nextSpillIndex
    let outcome := d.faults.next
    let d := { d with nextSpillIndex := idx + 1, faults := d.faults.tail }
    match outcome with
    | .done =>
      ({ d with liveSpills := d.liveSpills ++ [(idx, rows)]
                spilledRows := d.spilledRows + rows.length }, .ok ())
    | _ => (d, .error .io)

/-- Stage a version; `allowSpill` is off inside a transaction, whose rows must stay removable. -/
def insertInner (d : Delta) (v : Version) (allowSpill : Bool) : Delta × Except DeltaError Unit :=
  match v.checkEncodable with
  | .error e => (d, .error e)
  | .ok () =>
    let projected := saturatingAdd d.mem.byteSize v.encodedSize
    if allowSpill ∧ d.config.spillThresholdBytes < projected ∧ 0 < d.mem.byteSize then
      match d.spillInMemory with
      | (d, .error e) => (d, .error e)
      | (d, .ok ()) => ({ d with mem := d.mem.insert v }, .ok ())
    else ({ d with mem := d.mem.insert v }, .ok ())

/-- Stage a version, spilling if memory is full. -/
def insert (d : Delta) (v : Version) : Delta × Except DeltaError Unit := d.insertInner v true

/-- Stage a version in memory whatever the threshold says. -/
def insertResident (d : Delta) (v : Version) : Delta × Except DeltaError Unit :=
  d.insertInner v false

/-- Take back a version staged in memory. -/
def removeVersion (d : Delta) (i : VersionId) : Delta := { d with mem := d.mem.remove i }

/-- Take back a tombstone. -/
def removeRetraction (d : Delta) (i : VersionId) : Delta :=
  { d with retractions := d.retractions.erase i }

/-- Stage a tombstone for the next flush. -/
def stageRetraction (d : Delta) (c : Close) : Delta :=
  { d with retractions := d.retractions.insert c }

/-- The rows of the live spill files, oldest file first. -/
def spillRows (d : Delta) : List Version := d.liveSpills.flatMap Prod.snd

/-- The staged versions of a key: the ones in memory, then the spilled ones. -/
def candidateVersions (d : Delta) (key : BusinessKey) : List Version :=
  (d.mem.iter.filter fun v => v.businessKey = key) ++
    d.spillRows.filter fun v => v.businessKey = key

/-- Every staged version once, in `(business_key, sys_from, seq)` order; a spilled row replaces
the in-memory row of its identity. -/
def mergeStaged (d : Delta) : List Version :=
  ((KeyedMap.ofList d.mem.iter : KeyedMap Version.id).insertAll d.spillRows).values

/-- The versions the next flush seals. -/
def stagedVersions (d : Delta) : List Version := d.mergeStaged

/-- The tombstones the next flush seals. -/
def stagedRetractions (d : Delta) : List Close := d.retractions.values

/-- Drop everything staged. -/
def clearStaged (d : Delta) : Delta :=
  { d with mem := MemTier.new, spilledRows := 0, retractions := KeyedMap.empty, liveSpills := [] }

/-- After a flush: its rows now live in a segment. -/
def discardFlushed (d : Delta) : Delta := d.clearStaged

/-- After an aborted bulk load. -/
def discardStaged (d : Delta) : Delta := d.clearStaged

/-- The tier holds `v`, in memory or in a spill file. -/
def Holds (d : Delta) (v : Version) : Prop := v ∈ d.mem.rows ∨ v ∈ d.spillRows

theorem mem_candidateVersions {d : Delta} {key : BusinessKey} {v : Version} :
    v ∈ d.candidateVersions key ↔ d.Holds v ∧ v.businessKey = key := by
  simp only [candidateVersions, MemTier.iter, List.mem_append, List.mem_filter,
    KeyedMap.mem_values, decide_eq_true_eq, Holds]
  tauto

/-- No two different staged versions have one identity. -/
def Consistent (d : Delta) : Prop := ∀ v w, d.Holds v → d.Holds w → v.id = w.id → v = w

theorem mem_mergeStaged {d : Delta} (h : d.Consistent) {v : Version} :
    v ∈ d.mergeStaged ↔ d.Holds v := by
  have hmem : ∀ w, w ∈ (KeyedMap.ofList d.mem.iter : KeyedMap Version.id) ↔ w ∈ d.mem.rows := by
    intro w
    rw [KeyedMap.mem_ofList]
    · exact KeyedMap.mem_values
    · intro a ha b hb
      exact KeyedMap.eq_of_mem (KeyedMap.mem_values.1 ha) (KeyedMap.mem_values.1 hb)
  rw [mergeStaged, KeyedMap.mem_values, KeyedMap.mem_insertAll]
  · rw [hmem]; rfl
  · intro a ha b hb
    rw [hmem] at ha
    exact h a b ha (.inr hb)

@[simp] theorem holds_clearStaged (d : Delta) (v : Version) : ¬ d.clearStaged.Holds v := by
  simp [Holds, clearStaged, MemTier.new, spillRows]

theorem holds_removeVersion {d : Delta} {i : VersionId} {v : Version} :
    (d.removeVersion i).Holds v ↔ (v ∈ d.mem.rows ∧ v.id ≠ i) ∨ v ∈ d.spillRows := by
  simp only [Holds, removeVersion, MemTier.mem_remove]
  rfl

/-- With a healthy disk a spill succeeds, and moves the rows without losing any. -/
theorem spillInMemory_clean {d : Delta} (hf : d.faults.Clean) :
    ∃ d', d.spillInMemory = (d', .ok ()) ∧ d'.config = d.config ∧
      d'.retractions = d.retractions ∧ d'.faults.Clean ∧ ∀ v, d'.Holds v ↔ d.Holds v := by
  unfold spillInMemory
  by_cases hr : d.mem.iter.isEmpty = true
  · refine ⟨_, if_pos hr, rfl, rfl, hf, fun v => ?_⟩
    have hno : v ∉ d.mem.rows := by
      rw [← KeyedMap.mem_values, show d.mem.rows.values = [] from List.isEmpty_iff.1 hr]
      exact List.not_mem_nil
    simp [Holds, MemTier.new, spillRows, hno]
  · simp only [hr, Bool.false_eq_true, ↓reduceIte, hf.next]
    refine ⟨_, rfl, rfl, rfl, hf.tail, fun v => ?_⟩
    simp only [Holds, MemTier.new, KeyedMap.not_mem_empty, false_or, spillRows, List.flatMap_append,
      List.flatMap_singleton, List.mem_append, MemTier.iter, KeyedMap.mem_values]
    tauto

theorem checkEncodable_of {v : Version} (h : v.Encodable) : v.checkEncodable = .ok () := if_pos h

theorem insertInner_of_not_encodable {v : Version} (h : ¬ v.Encodable) (d : Delta) (b : Bool) :
    d.insertInner v b = (d, .error (.tooLarge v.encodedSize)) := by
  simp [insertInner, Version.checkEncodable, h]

theorem holds_mem_insert {d : Delta} {v : Version}
    (hfresh : ∀ w, d.Holds w → w.id = v.id → w = v) (w : Version) :
    { d with mem := d.mem.insert v }.Holds w ↔ w = v ∨ d.Holds w := by
  simp only [Holds, MemTier.mem_insert]
  constructor
  · rintro ((rfl | ⟨hw, -⟩) | hw)
    · exact .inl rfl
    · exact .inr (.inl hw)
    · exact .inr (.inr hw)
  · rintro (rfl | hw | hw)
    · exact .inl (.inl rfl)
    · by_cases hid : w.id = v.id
      · exact .inl (.inl (hfresh w (.inl hw) hid))
      · exact .inl (.inr ⟨hw, hid⟩)
    · exact .inr hw

/-- **What an insert does**: with a healthy disk it succeeds on every encodable version, adds it
to the set of staged versions and leaves the tombstones alone, whether or not it spills. -/
theorem insertInner_clean {d : Delta} {v : Version} (hf : d.faults.Clean) (hv : v.Encodable)
    (hfresh : ∀ w, d.Holds w → w.id = v.id → w = v) (b : Bool) :
    ∃ d', d.insertInner v b = (d', .ok ()) ∧ d'.retractions = d.retractions ∧ d'.faults.Clean ∧
      ∀ w, d'.Holds w ↔ w = v ∨ d.Holds w := by
  simp only [insertInner, checkEncodable_of hv]
  split_ifs with hs
  · obtain ⟨d₁, h₁, -, hr, hf₁, hh⟩ := spillInMemory_clean hf
    rw [h₁]
    refine ⟨_, rfl, hr, hf₁, fun w => ?_⟩
    rw [holds_mem_insert fun u hu => hfresh u ((hh u).1 hu), hh]
  · exact ⟨_, rfl, rfl, hf, holds_mem_insert hfresh⟩

/-- With a healthy disk an insert fails only on the size of the version. -/
theorem insertInner_snd {d : Delta} (hf : d.faults.Clean) {v : Version} (hv : v.Encodable)
    (b : Bool) : (d.insertInner v b).2 = .ok () := by
  simp only [insertInner, checkEncodable_of hv]
  split_ifs with hs
  · obtain ⟨d₁, h₁, -⟩ := spillInMemory_clean hf
    rw [h₁]
  · rfl

theorem insertResident_eq {d : Delta} {v : Version} (hv : v.Encodable) :
    d.insertResident v = ({ d with mem := d.mem.insert v }, .ok ()) := by
  simp [insertResident, insertInner, checkEncodable_of hv]

end Delta

end SteleDb
