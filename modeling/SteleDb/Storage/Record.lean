import SteleDb.Lib.KeyedMap
import SteleDb.Lib.Words

/-!
# Records of the bitemporal store

The two durable records of a table: a `Version` (one value of one logical row, open from its
`sysFrom` on) and a `Close` (the end of a version's system period, kept apart from the version
because records are never rewritten).  A version is identified by its business key, its commit
instant and the per-commit sequence number (`Version.id`); within one key the chain is ordered by
`(sys_from, seq)` (`Version.pos`).

`sysTo` and `closedBy` of a version are a read-time overlay: every stored version is open.
-/

namespace SteleDb

/-- Raw bytes; byte strings are ordered lexicographically. -/
abbrev Bytes := List (Fin 256)

/-- The key of a logical row. -/
abbrev BusinessKey := Bytes

/-- Microseconds on the system-time axis (an `i64`). -/
abbrev SystemTimeMicros := ℤ

/-- The largest `i64`. -/
def i64Max : ℤ := 2 ^ 63 - 1

/-- The smallest `i64`. -/
def i64Min : ℤ := -2 ^ 63

/-- The `+∞` sentinel of an open period. -/
def systemTimeOpen : SystemTimeMicros := i64Max

/-- A per-commit sequence number (a `u64`). -/
abbrev Seq := Fin (2 ^ 64)

/-- `u64::MAX` as a sequence number. -/
def seqMax : Seq := Fin.last _

theorem le_seqMax (n : Seq) : n ≤ seqMax := Fin.le_last n

/-- `u64` addition that stops at `u64::MAX`. -/
def saturatingAdd (a b : ℕ) : ℕ := min (a + b) (2 ^ 64 - 1)

/-- Transaction identifiers. -/
abbrev TxnId := ℕ

/-- Who wrote a record, in which transaction and when. -/
structure Provenance where
  /-- The writing transaction. -/
  txnId : TxnId
  /-- Its commit instant. -/
  committedAt : SystemTimeMicros
  /-- The principal that issued the write. -/
  principal : Bytes
  deriving DecidableEq, Repr

/-- `(sys_from, seq)`: the order of the versions of one key. -/
abbrev ChainPos := ℤ ×ₗ Seq

/-! The keys of maps are everywhere, so what their types need is found by name. -/

instance Bytes.lawfulBEq : LawfulBEq Bytes := inferInstance

instance Bytes.transCmp : Std.TransCmp (@compare Bytes LinearOrder.toOrd) := inferInstance

instance Bytes.transCmpPair : Std.TransCmp (@compare (Bytes ×ₗ Bytes) LinearOrder.toOrd) :=
  inferInstance

instance Bytes.transCmpPos : Std.TransCmp (@compare (Bytes ×ₗ ChainPos) LinearOrder.toOrd) :=
  inferInstance

/-- `(business_key, sys_from, seq)`: the identity of a version. -/
abbrev VersionId := BusinessKey ×ₗ ChainPos

instance VersionId.lawfulBEq : LawfulBEq VersionId := inferInstance

/-- One version of one logical row. -/
structure Version where
  /-- The row this version belongs to. -/
  businessKey : BusinessKey
  /-- Start of the version's system period: the commit that asserted it. -/
  sysFrom : SystemTimeMicros
  /-- Tie-break between commits at one instant. -/
  seq : Seq
  /-- Overlay: the end of the period, `systemTimeOpen` while open. -/
  sysTo : SystemTimeMicros
  /-- Provenance of the write. -/
  provenance : Provenance
  /-- Overlay: provenance of the write that closed the period. -/
  closedBy : Option Provenance
  /-- The encoded cells, `none` for SQL `NULL`. -/
  payload : Option Bytes
  deriving DecidableEq, Repr

namespace Version

/-- An open version: the shape every stored record has. -/
def mkOpen (businessKey : BusinessKey) (sysFrom : SystemTimeMicros) (seq : Seq)
    (provenance : Provenance) (payload : Option Bytes) : Version :=
  { businessKey, sysFrom, seq, sysTo := systemTimeOpen, provenance, closedBy := none, payload }

/-- Position of the version in its key's chain. -/
def pos (v : Version) : ChainPos := toLex (v.sysFrom, v.seq)

/-- Identity of the version. -/
def id (v : Version) : VersionId := toLex (v.businessKey, v.pos)

/-- Fixed part of a version frame. -/
def headerLen : ℕ := 44

/-- Ceiling of a version frame: 16 MiB. -/
def maxVersionFrameLen : ℕ := 16 * 1024 * 1024

/-- Bytes of the encoded frame; the overlay is not part of it. -/
def encodedSize (v : Version) : ℕ :=
  headerLen + v.businessKey.length + (v.payload.map List.length).getD 0 +
    v.provenance.principal.length

/-- Every variable-length part has a `u32` length and the frame stays below its ceiling. -/
def Encodable (v : Version) : Prop :=
  v.businessKey.length < 2 ^ 32 ∧ (v.payload.map List.length).getD 0 < 2 ^ 32 ∧
    v.provenance.principal.length < 2 ^ 32 ∧ v.encodedSize ≤ maxVersionFrameLen

instance (v : Version) : Decidable v.Encodable :=
  inferInstanceAs (Decidable (_ ∧ _ ∧ _ ∧ _))

/-- A payload of 16 MiB leaves no room for the header. -/
theorem not_encodable_of_payload {v : Version} {b : Bytes} (hb : v.payload = some b)
    (h : maxVersionFrameLen ≤ b.length) : ¬ v.Encodable := by
  rintro ⟨-, -, -, hsize⟩
  simp only [encodedSize, hb, Option.map_some, Option.getD_some, headerLen] at hsize
  omega

end Version

/-- The end of a version's period, as the validity index stores it. -/
structure ClosedInterval where
  /-- End of the period. -/
  sysTo : SystemTimeMicros
  /-- Provenance of the write that ended it. -/
  closedBy : Provenance
  deriving DecidableEq, Repr

/-- A close: the version it ends, and how. -/
structure Close where
  /-- Key of the closed version. -/
  businessKey : BusinessKey
  /-- Start of the closed version. -/
  sysFrom : SystemTimeMicros
  /-- Sequence number of the closed version. -/
  seq : Seq
  /-- End of its period. -/
  sysTo : SystemTimeMicros
  /-- Provenance of the closing write. -/
  closedBy : Provenance
  deriving DecidableEq, Repr

namespace Close

/-- The identity of the closed version. -/
def target (c : Close) : VersionId := toLex (c.businessKey, toLex (c.sysFrom, c.seq))

/-- What the index stores under the target. -/
def interval (c : Close) : ClosedInterval := ⟨c.sysTo, c.closedBy⟩

/-- Fixed part of a close frame. -/
def headerLen : ℕ := 48

/-- Ceiling of a close frame: 16 MiB. -/
def maxCloseFrameLen : ℕ := 16 * 1024 * 1024

/-- Bytes of the encoded frame. -/
def encodedSize (c : Close) : ℕ :=
  headerLen + c.businessKey.length + c.closedBy.principal.length

/-- Every variable-length part has a `u32` length and the frame stays below its ceiling. -/
def Encodable (c : Close) : Prop :=
  c.businessKey.length < 2 ^ 32 ∧ c.closedBy.principal.length < 2 ^ 32 ∧
    c.encodedSize ≤ maxCloseFrameLen

instance (c : Close) : Decidable c.Encodable := inferInstanceAs (Decidable (_ ∧ _ ∧ _))

end Close

@[simp] theorem Version.mkOpen_pos (k : BusinessKey) (t : ℤ) (n : Seq) (p : Provenance)
    (b : Option Bytes) : (Version.mkOpen k t n p b).pos = toLex (t, n) := rfl

@[simp] theorem Version.mkOpen_id (k : BusinessKey) (t : ℤ) (n : Seq) (p : Provenance)
    (b : Option Bytes) : (Version.mkOpen k t n p b).id = toLex (k, toLex (t, n)) := rfl

theorem Version.id_eq_iff {v w : Version} :
    v.id = w.id ↔ v.businessKey = w.businessKey ∧ v.pos = w.pos := by
  simp only [Version.id, EmbeddingLike.apply_eq_iff_eq, Prod.mk.injEq]

/-- What the disk does with one write: it lands, it fails with nothing written, or it fails with
some of its bytes written. -/
inductive IoOutcome where
  /-- The operation succeeds. -/
  | done
  /-- The operation fails and leaves no trace. -/
  | failed
  /-- The operation fails after writing part of its bytes. -/
  | torn
  deriving DecidableEq, Repr

/-- The outcomes of a device's next operations; every operation past the end of the list
succeeds. -/
abbrev Faults := List IoOutcome

namespace Faults

/-- The outcome of the next operation. -/
def next : Faults → IoOutcome
  | [] => .done
  | o :: _ => o

/-- No operation fails. -/
def Clean (f : Faults) : Prop := ∀ o ∈ f, o = .done

theorem Clean.next {f : Faults} (h : f.Clean) : f.next = .done := by
  cases f with
  | nil => rfl
  | cons o f => exact h o List.mem_cons_self

theorem Clean.tail {f : Faults} (h : f.Clean) : Clean f.tail :=
  fun o ho => h o (List.mem_of_mem_tail ho)

end Faults

end SteleDb
