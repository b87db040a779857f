import SteleDb.Storage.RedoCodec

/-!
# Runs of the validity index

The validity index against its reference: one map that holds the closes that were accepted, each
once.  Calls offer closes, with or without leave to spill, and take resident ones back; spill writes
may fail.

The reference is `entered`: a close that was accepted is entered unless its version has an end
already, one that was taken back leaves.  `ValidityIndex.Mirrors` relates the index to it; a call
keeps the relation (`Mirrors.call`), hence a run does (`Mirrors.run`), and every read path answers
from the reference (`index_reads_reference`), wherever a close sits.
-/

namespace SteleDb

/-! ### Spill files -/

/-- The bytes of a spill file. -/
def IndexSpill.bytes (sp : IndexSpill) : Bytes := sp.closes.flatMap Close.frame

/-- The closes of a spill file, read until it ends. -/
def readSpill (bytes : Bytes) : Except RedoCorrupt (List Close) := Close.decode.all bytes

theorem Close.frame_ne_nil (c : Close) : c.frame ≠ [] := by
  have hlen := c.length_frame
  intro hnil
  rw [hnil, List.length_nil, encodedSize, headerLen] at hlen
  omega

/-- A spill file reads back as the closes it was written from. -/
theorem readSpill_bytes {sp : IndexSpill} (h : ∀ c ∈ sp.closes, c.Encodable ∧ c.WellTyped) :
    readSpill sp.bytes = .ok sp.closes :=
  (Close.exact_decode.all_eq_ok fun c _ => c.frame_ne_nil).2 ⟨h, rfl⟩

/-! ### Calls -/

/-- A call of the validity index. -/
inductive IndexCall where
  /-- Materialise a close, spilling if memory is full. -/
  | insertClose (c : Close)
  /-- Materialise a close in memory. -/
  | insertCloseResident (c : Close)
  /-- Take back a close held in memory. -/
  | removeClose (i : VersionId)
  deriving DecidableEq

/-- What the types of the fields promise. -/
def IndexCall.WellTyped : IndexCall → Prop
  | .insertClose c => c.WellTyped
  | .insertCloseResident c => c.WellTyped
  | .removeClose _ => True

instance (op : IndexCall) : Decidable op.WellTyped := by
  cases op
  · exact inferInstanceAs (Decidable (Close.WellTyped _))
  · exact inferInstanceAs (Decidable (Close.WellTyped _))
  · exact inferInstanceAs (Decidable True)

/-- The entries of a validity index. -/
abbrev Ends := OrdMap VersionId ClosedInterval

/-- The reference after a call: a close that was accepted is entered unless its version has an end
already, one that was taken back leaves. -/
def Ends.entered (m : Ends) (accepted : Bool) : IndexCall → Ends
  | .insertClose c | .insertCloseResident c =>
    if accepted ∧ m[c.target]? = none then m.insert c.target c.interval else m
  | .removeClose i => if accepted then m.erase i else m

/-- The greatest end of some versions, if all of them have one. -/
def Ends.upperBound (m : Ends) (ids : List VersionId) : ValidityIndex.SysUpperBound :=
  match ids.mapM fun i => m[i]? with
  | none => .unbounded
  | some ends => .bounded ((ends.map ClosedInterval.sysTo).foldl max i64Min)

namespace ValidityIndex

/-- The index after a call, and whether the call was accepted. -/
def call (ix : ValidityIndex) : IndexCall → ValidityIndex × Bool
  | .insertClose c => ((ix.insertClose c).1, (ix.insertClose c).2.isOk)
  | .insertCloseResident c => ((ix.insertCloseResident c).1, (ix.insertCloseResident c).2.isOk)
  | .removeClose i => (ix.removeClose i, (ix.mem.find? i).isSome)

/-- The index and the reference after some calls. -/
def runWith (ix : ValidityIndex) (m : Ends) : List IndexCall → ValidityIndex × Ends
  | [] => (ix, m)
  | op :: ops => (ix.call op).1.runWith (m.entered (ix.call op).2 op) ops

/-- What holds of the closes of an index: a version has one end, in one place, and every close can
be written to a file. -/
structure Held (ix : ValidityIndex) : Prop where
  /-- A version is closed at most once. -/
  writeOnce : ix.WriteOnce
  /-- A close in memory is in no file. -/
  apart : ∀ c ∈ ix.mem, ∀ c' ∈ ix.spillCloses, c.target ≠ c'.target
  /-- Every close fits a frame. -/
  framed : ∀ c, ix.Has c → c.Encodable ∧ c.WellTyped

/-- The reference holds exactly the ends of the index. -/
structure Mirrors (ix : ValidityIndex) (m : Ends) : Prop where
  /-- The closes of the index. -/
  held : ix.Held
  /-- Lookups agree. -/
  ends : ∀ i, m[i]? = ix.closeOf i

/-- **What a spill can do**: move every close of memory to a file, or fail and leave all of them
where they are. -/
theorem spillInMemory_cases (ix : ValidityIndex) :
    (∃ ix', ix.spillInMemory = (ix', .ok ()) ∧ (∀ c, ix'.Has c ↔ ix.Has c) ∧ ∀ c, c ∉ ix'.mem) ∨
    ∃ ix', ix.spillInMemory = (ix', .error .io) ∧ ix'.mem = ix.mem ∧
      ix'.liveSpills = ix.liveSpills := by
  unfold spillInMemory
  split
  · rename_i hm
    refine .inl ⟨ix, rfl, fun _ => Iff.rfl, fun c hc => ?_⟩
    rw [← KeyedMap.mem_values, hm] at hc
    cases hc
  · rename_i c₀ cs hm
    have hin : ∀ c, c ∈ ix.mem ↔ c ∈ c₀ :: cs := by
      intro c
      rw [← hm]
      exact KeyedMap.mem_values.symm
    cases ix.faults.next with
    | done =>
      refine .inl ⟨_, rfl, fun c => ?_, fun c => KeyedMap.not_mem_empty c⟩
      simp only [Has, KeyedMap.not_mem_empty, false_or, spillCloses, List.flatMap_append,
        List.flatMap_singleton, List.mem_append, writeSpill, hin]
      tauto
    | failed => exact .inr ⟨_, rfl, rfl, rfl⟩
    | torn => exact .inr ⟨_, rfl, rfl, rfl⟩

/-- **What a close can do**: be refused or repeat one, with nothing changed; fail to spill, with
every close in its place; or be new and enter memory, after a spill or not. -/
theorem insertCloseInner_cases (ix : ValidityIndex) (c : Close) (b : Bool) :
    (∃ e, ix.insertCloseInner c b = (ix, .error e) ∧
      (¬ c.Encodable ∨ ∃ ci, ix.closeOf c.target = some ci ∧ ci ≠ c.interval)) ∨
    (ix.insertCloseInner c b = (ix, .ok ()) ∧ ix.closeOf c.target = some c.interval) ∨
    (∃ ix', ix.insertCloseInner c b = (ix', .error .io) ∧ ix'.mem = ix.mem ∧
      ix'.liveSpills = ix.liveSpills) ∨
    ∃ ix₁ n, ix.insertCloseInner c b =
      ({ ix₁ with byteSize := n, mem := ix₁.mem.insert c }, .ok ()) ∧
      c.Encodable ∧ ix.closeOf c.target = none ∧ (∀ x, ix₁.Has x ↔ ix.Has x) ∧
      (ix₁ = ix ∨ ∀ x, x ∉ ix₁.mem) := by
  by_cases hc : c.Encodable
  · cases hco : ix.closeOf c.target with
    | some ci =>
      by_cases hci : ci = c.interval
      · refine .inr (.inl ⟨?_, by rw [hci]⟩)
        exact insertCloseInner_idem hc (by rw [hco, hci]) b
      · refine .inl ⟨.alreadyClosed, ?_, .inr ⟨ci, rfl, hci⟩⟩
        simp [insertCloseInner, Close.checkEncodable, hc, hco, hci]
    | none =>
      simp only [insertCloseInner, Close.checkEncodable, hc, if_true, hco]
      split_ifs with hspill
      · rcases ix.spillInMemory_cases with ⟨ix₁, hs, hhas, hmem⟩ | ⟨ix₁, hs, hmem, hfiles⟩
        · rw [hs]
          exact .inr (.inr (.inr ⟨ix₁, _, rfl, trivial, trivial, hhas, .inr hmem⟩))
        · rw [hs]
          exact .inr (.inr (.inl ⟨ix₁, rfl, hmem, hfiles⟩))
      · exact .inr (.inr (.inr ⟨ix, _, rfl, trivial, trivial, fun _ => Iff.rfl, .inl rfl⟩))
  · exact .inl ⟨_, insertCloseInner_of_not_encodable hc ix b, .inl hc⟩

/-- The closes of an index do not depend on its counters. -/
theorem Held.of_same {ix ix' : ValidityIndex} (h : ix.Held) (hmem : ix'.mem = ix.mem)
    (hfiles : ix'.liveSpills = ix.liveSpills) : ix'.Held ∧ ix'.closeOf = ix.closeOf := by
  have hhas : ∀ c, ix'.Has c ↔ ix.Has c := by
    intro c
    rw [Has, Has, spillCloses, spillCloses, hmem, hfiles]
  have hw := h.writeOnce.congr hhas
  refine ⟨⟨hw, ?_, fun c hc => h.framed c ((hhas c).1 hc)⟩, ?_⟩
  · rw [spillCloses, hmem, hfiles]
    exact h.apart
  · exact closeOf_congr hw h.writeOnce hhas

/-- A new close enters memory. -/
theorem Held.insert {ix ix₁ : ValidityIndex} (h : ix.Held) {c : Close} {n : ℕ}
    (hc : c.Encodable ∧ c.WellTyped) (hnone : ix.closeOf c.target = none)
    (hhas : ∀ x, ix₁.Has x ↔ ix.Has x) (hmem : ix₁ = ix ∨ ∀ x, x ∉ ix₁.mem) :
    let ix' := { ix₁ with byteSize := n, mem := ix₁.mem.insert c }
    ix'.Held ∧ ∀ i, ix'.closeOf i = if i = c.target then some c.interval else ix.closeOf i := by
  intro ix'
  have hw₁ := h.writeOnce.congr hhas
  have hnone₁ : ix₁.closeOf c.target = none := by
    rw [closeOf_congr hw₁ h.writeOnce hhas, hnone]
  have hin : ∀ x, ix'.Has x ↔ x = c ∨ ix.Has x :=
    fun x => (has_mem_insert hw₁ hnone₁ n x).trans (or_congr_right (hhas x))
  refine ⟨⟨h.writeOnce.insert hnone hin, fun x hx y hy => ?_, fun x hx => ?_⟩,
    closeOf_insert h.writeOnce hnone hin⟩
  · -- the new close is in no file, and the files were apart from memory before
    have hyfile : y ∈ ix₁.spillCloses := hy
    rcases KeyedMap.mem_insert.1 hx with rfl | ⟨hx, -⟩
    · exact fun heq => (closeOf_eq_none hw₁).1 hnone₁ y (.inr hyfile) heq.symm
    · rcases hmem with rfl | hempty
      · exact h.apart x hx y hyfile
      · exact absurd hx (hempty x)
  · rcases (hin x).1 hx with rfl | hx
    · exact hc
    · exact h.framed x hx

/-- A close is taken back if it is in memory. -/
theorem Held.remove {ix : ValidityIndex} (h : ix.Held) (i : VersionId) :
    (ix.removeClose i).Held ∧ ∀ j, (ix.removeClose i).closeOf j =
      if (ix.mem.find? i).isSome ∧ j = i then none else ix.closeOf j := by
  cases hfind : ix.mem.find? i with
  | none =>
    have hsame : ix.removeClose i = ix := by rw [removeClose, hfind]
    rw [hsame]
    exact ⟨h, fun j => by simp⟩
  | some c =>
    obtain ⟨hcmem, rfl⟩ := KeyedMap.find?_eq_some.1 hfind
    have hhas : ∀ x, (ix.removeClose c.target).Has x ↔ ix.Has x ∧ x.target ≠ c.target := by
      intro x
      rw [has_removeClose, Has]
      constructor
      · rintro (⟨hx, hne⟩ | hx)
        · exact ⟨.inl hx, hne⟩
        · exact ⟨.inr hx, fun heq => h.apart c hcmem x hx heq.symm⟩
      · rintro ⟨hx | hx, hne⟩
        · exact .inl ⟨hx, hne⟩
        · exact .inr hx
    have hfiles : (ix.removeClose c.target).spillCloses = ix.spillCloses := by
      rw [removeClose, hfind]
      rfl
    have hw : (ix.removeClose c.target).WriteOnce :=
      fun x y hx hy => h.writeOnce x y ((hhas x).1 hx).1 ((hhas y).1 hy).1
    refine ⟨⟨hw, fun x hx y hy => ?_, fun x hx => h.framed x ((hhas x).1 hx).1⟩, fun j => ?_⟩
    · have hx' : x ∈ ix.mem := by
        rw [removeClose, hfind] at hx
        exact (KeyedMap.mem_erase.1 hx).1
      rw [hfiles] at hy
      exact h.apart x hx' y hy
    · simp only [Option.isSome_some, true_and]
      split_ifs with hj
      · exact (closeOf_eq_none hw).2 fun x hx => by rw [hj]; exact ((hhas x).1 hx).2
      · apply Option.ext
        intro ci
        rw [closeOf_eq_some hw, closeOf_eq_some h.writeOnce]
        constructor
        · rintro ⟨x, hx, rfl, rfl⟩
          exact ⟨x, ((hhas x).1 hx).1, rfl, rfl⟩
        · rintro ⟨x, hx, rfl, rfl⟩
          exact ⟨x, (hhas x).2 ⟨hx, hj⟩, rfl, rfl⟩

namespace Mirrors

variable {ix : ValidityIndex} {m : Ends}

/-- A close offered, with or without leave to spill. -/
theorem offer (h : Mirrors ix m) {c : Close} (hc : c.WellTyped) (b : Bool) :
    Mirrors (ix.insertCloseInner c b).1
      (if (ix.insertCloseInner c b).2.isOk ∧ m[c.target]? = none then m.insert c.target c.interval
        else m) := by
  rcases ix.insertCloseInner_cases c b with ⟨e, heq, -⟩ | ⟨heq, hco⟩ | ⟨ix', heq, hmem, hfiles⟩ |
    ⟨ix₁, n, heq, hsmall, hnone, hhas, hmem⟩
  · rw [heq, if_neg (by rintro ⟨⟨⟩, -⟩)]
    exact h
  · rw [heq, if_neg (by rw [h.ends, hco]; rintro ⟨-, ⟨⟩⟩)]
    exact h
  · obtain ⟨hheld, hends⟩ := h.held.of_same hmem hfiles
    rw [heq, if_neg (by rintro ⟨⟨⟩, -⟩)]
    exact ⟨hheld, fun i => by rw [h.ends, hends]⟩
  · obtain ⟨hheld, hends⟩ := h.held.insert ⟨hsmall, hc⟩ hnone hhas hmem
    rw [heq, if_pos ⟨rfl, by rw [h.ends, hnone]⟩]
    refine ⟨hheld, fun i => ?_⟩
    rw [OrdMap.getElem?_insert, hends, h.ends]
    by_cases hi : i = c.target
    · rw [if_pos hi.symm, if_pos hi]
    · rw [if_neg (Ne.symm hi), if_neg hi]

/-- A close taken back. -/
theorem takeBack (h : Mirrors ix m) (i : VersionId) :
    Mirrors (ix.removeClose i) (if (ix.mem.find? i).isSome then m.erase i else m) := by
  obtain ⟨hheld, hends⟩ := h.held.remove i
  refine ⟨hheld, fun j => ?_⟩
  rw [hends]
  by_cases hres : (ix.mem.find? i).isSome
  · rw [if_pos hres, OrdMap.getElem?_erase]
    by_cases hj : j = i
    · rw [if_pos hj.symm, if_pos ⟨hres, hj⟩]
    · rw [if_neg (Ne.symm hj), if_neg (fun hc => hj hc.2), h.ends]
  · rw [if_neg hres, if_neg (fun hc => hres hc.1), h.ends]

/-- **One call** keeps index and reference in step. -/
theorem call (h : Mirrors ix m) {op : IndexCall} (hop : op.WellTyped) :
    Mirrors (ix.call op).1 (m.entered (ix.call op).2 op) := by
  cases op with
  | insertClose c => exact h.offer hop true
  | insertCloseResident c => exact h.offer hop false
  | removeClose i => exact h.takeBack i

/-- **A run** keeps index and reference in step. -/
theorem run (h : Mirrors ix m) {ops : List IndexCall} (hops : ∀ op ∈ ops, op.WellTyped) :
    Mirrors (ix.runWith m ops).1 (ix.runWith m ops).2 := by
  induction ops generalizing ix m with
  | nil => exact h
  | cons op ops ih =>
    obtain ⟨hop, hops⟩ := List.forall_mem_cons.1 hops
    exact ih (h.call hop) hops

end Mirrors

/-- An index just opened holds nothing. -/
theorem mirrors_opened (config : ValidityConfig) (nextSpillIndex : ℕ) (faults : Faults) :
    Mirrors { config, nextSpillIndex, faults } ∅ := by
  have hnone : ∀ c, ¬ ({ config, nextSpillIndex, faults } : ValidityIndex).Has c := by
    rintro c (hc | hc)
    · exact KeyedMap.not_mem_empty c hc
    · cases hc
  have hheld : Held { config, nextSpillIndex, faults } :=
    ⟨fun c _ hc => absurd hc (hnone c), fun c hc => absurd (.inl hc) (hnone c),
      fun c hc => absurd hc (hnone c)⟩
  refine ⟨hheld, fun i => ?_⟩
  rw [(closeOf_eq_none hheld.writeOnce).2 fun c hc => absurd hc (hnone c)]
  rfl

theorem sysUpperBoundFrom_eq {ix : ValidityIndex} {m : Ends} (h : ∀ i, m[i]? = ix.closeOf i)
    (acc : SystemTimeMicros) (ids : List VersionId) :
    ix.sysUpperBoundFrom acc ids = match ids.mapM fun i => m[i]? with
      | none => .unbounded
      | some ends => .bounded ((ends.map ClosedInterval.sysTo).foldl max acc) := by
  induction ids generalizing acc with
  | nil => rfl
  | cons i ids ih =>
    rw [sysUpperBoundFrom, List.mapM_cons, h i]
    cases ix.closeOf i with
    | none => rfl
    | some ci =>
      simp only [ih]
      cases ids.mapM fun i => m[i]? <;> rfl

/-- **Spilling is transparent and closes are write-once.**  After any calls, with any threshold and
any spill writes failing, the index materialises to the reference, every lookup answers from it, and
every spill file reads back.  A close that conflicts with the reference is refused with the index
unchanged; if the disk is healthy, any other that fits a frame is accepted. -/
theorem index_reads_reference (config : ValidityConfig) (nextSpillIndex : ℕ) (faults : Faults)
    (ops : List IndexCall) (hops : ∀ op ∈ ops, op.WellTyped) :
    let r := ({ config, nextSpillIndex, faults } : ValidityIndex).runWith ∅ ops
    r.1.materialize = r.2 ∧
    (∀ i, r.1.closeOf i = r.2[i]?) ∧
    (∀ key p, (r.1.closesFor key)[p]? = r.2[(toLex (key, p) : VersionId)]?) ∧
    (∀ keys, ∀ key ∈ keys, ∀ p, (r.1.closesForKeys keys)[(toLex (key, p) : VersionId)]? =
      r.2[(toLex (key, p) : VersionId)]?) ∧
    (∀ ids, r.1.sysUpperBound ids = r.2.upperBound ids) ∧
    (∀ sp ∈ r.1.liveSpills, readSpill sp.bytes = .ok sp.closes) ∧
    (∀ c b ci, r.2[c.target]? = some ci → ci ≠ c.interval →
      ∃ e, r.1.insertCloseInner c b = (r.1, .error e)) ∧
    ∀ c b, r.1.faults.Clean → c.Encodable →
      (r.2[c.target]? = none ∨ r.2[c.target]? = some c.interval) →
        (r.1.insertCloseInner c b).2 = .ok () := by
  intro r
  have h : Mirrors r.1 r.2 := (mirrors_opened config nextSpillIndex faults).run hops
  have hw := h.held.writeOnce
  refine ⟨OrdMap.ext fun i => ?_, fun i => (h.ends i).symm, fun key p => ?_,
    fun keys key hkey p => ?_, fun ids => ?_, fun sp hsp => ?_, fun c b ci hci hne => ?_,
    fun c b hclean hsmall hfree => ?_⟩
  · rw [getElem?_materialize hw, h.ends]
  · rw [getElem?_closesFor hw, h.ends]
  · rw [getElem?_closesForKeys hw hkey, h.ends]
  · exact sysUpperBoundFrom_eq h.ends i64Min ids
  · exact readSpill_bytes fun c hc => h.held.framed c (.inr (mem_spillCloses.2 ⟨sp, hsp, hc⟩))
  · rw [h.ends] at hci
    by_cases hsmall : c.Encodable
    · refine ⟨.alreadyClosed, ?_⟩
      simp [insertCloseInner, Close.checkEncodable, hsmall, hci, hne]
    · exact ⟨_, insertCloseInner_of_not_encodable hsmall r.1 b⟩
  · rw [h.ends] at hfree
    rcases hfree with hnone | hsame
    · obtain ⟨ix', heq, -⟩ := insertCloseInner_clean hw hclean hsmall hnone b
      rw [heq]
    · rw [insertCloseInner_idem hsmall hsame b]

/-- Two closes, the second of which makes the first spill, and a conflicting close of the first. -/
def sampleCalls : List IndexCall :=
  [.insertClose ⟨[107], 10, 0, 20, ⟨2, 20, [98]⟩⟩, .insertClose ⟨[107], 20, 0, 30, ⟨3, 30, [98]⟩⟩,
    .insertClose ⟨[107], 10, 0, 25, ⟨4, 25, [98]⟩⟩]

/-- The reads of an index that has spilled. -/
theorem index_reads_spilled :
    let r := ({ config := ⟨0⟩ } : ValidityIndex).runWith ∅ sampleCalls
    r.1.liveSpills.length = 1 ∧ r.1.materialize = r.2 := by
  refine ⟨by decide +kernel, ?_⟩
  exact (index_reads_reference ⟨0⟩ 0 [] sampleCalls (by decide)).1

end ValidityIndex

end SteleDb
