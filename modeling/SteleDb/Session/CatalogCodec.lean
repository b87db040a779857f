import SteleDb.Lib.Cursor
import SteleDb.Lib.Utf8
import SteleDb.Session.Digest
import SteleDb.Session.Engine

/-!
# The payload of a catalog record

How a DDL statement is spelled in the catalog log: a kind byte and the fields of that kind, names
and byte strings with their length in front.  A name is UTF-8, which a reader checks.  `PUBLIC` is
written as the empty name of a role.

* `CatalogRecord.decodePayload_encodePayload` : a payload reads back as the record it was made from,
  if the record is one the session can have: its fields fit their widths, its names are UTF-8 and
  no role has the empty name.
-/

namespace SteleDb

/-! ### Errors -/

/-- Errors of the catalog log. -/
inductive CatalogLogError where
  /-- `identifier too long for the catalog log`. -/
  | identifierTooLong (len : ℕ)
  /-- `byte field too long for the catalog log`. -/
  | byteFieldTooLong (len : ℕ)
  /-- `too many columns`. -/
  | tooManyColumns (n : ℕ)
  /-- `too many index columns`. -/
  | tooManyIndexColumns (n : ℕ)
  /-- `too many privileges`. -/
  | tooManyPrivileges (n : ℕ)
  /-- `record payload too large`. -/
  | payloadTooLarge
  /-- `record payload truncated`. -/
  | truncated
  /-- `identifier is not UTF-8`. -/
  | notUtf8
  /-- `unknown column type tag`. -/
  | unknownType (tag : Fin 256)
  /-- `column: …`. -/
  | column
  /-- `valid-time: …`. -/
  | validTime
  /-- `bad valid-time flag`. -/
  | badValidTimeFlag (flag : Fin 256)
  /-- `unknown index kind tag`. -/
  | unknownIndexKind (tag : Fin 256)
  /-- `bad superuser flag`. -/
  | badSuperuserFlag (flag : Fin 256)
  /-- `unknown privilege tag`. -/
  | unknownPrivilege (tag : Fin 256)
  /-- `unknown record kind`. -/
  | unknownKind (kind : Fin 256)
  /-- `trailing bytes after record payload`. -/
  | trailingBytes
  /-- `a complete record's payload exceeds the maximum`. -/
  | recordTooLarge
  /-- `CRC mismatch on a complete record`. -/
  | crcMismatch
  /-- `hash-chain broken at record …`. -/
  | chainBroken (index : ℕ) (found expected : Digest)
  deriving DecidableEq

/-! ### Tags -/

/-- The tag of a type. -/
def LogicalType.tag : LogicalType → Fin 256
  | .int4 => 1
  | .int8 => 2
  | .text => 3
  | .bool => 4
  | .timestamp => 5
  | .timestampTz => 6
  | .date => 7
  | .period => 8
  | .uuid => 9
  | .bytea => 10
  | .float8 => 11

/-- The type of a tag. -/
def LogicalType.fromTag : Fin 256 → Option LogicalType
  | 1 => some .int4
  | 2 => some .int8
  | 3 => some .text
  | 4 => some .bool
  | 5 => some .timestamp
  | 6 => some .timestampTz
  | 7 => some .date
  | 8 => some .period
  | 9 => some .uuid
  | 10 => some .bytea
  | 11 => some .float8
  | _ => none

/-- The tag of a family of indexes. -/
def IndexKind.tag : IndexKind → Fin 256
  | .btree => 1
  | .hash => 2

/-- The family of a tag. -/
def IndexKind.fromTag : Fin 256 → Option IndexKind
  | 1 => some .btree
  | 2 => some .hash
  | _ => none

/-- The tag of a privilege. -/
def Privilege.tag : Privilege → Fin 256
  | .select => 1
  | .insert => 2
  | .update => 3
  | .delete => 4

/-- The privilege of a tag. -/
def Privilege.fromTag : Fin 256 → Option Privilege
  | 1 => some .select
  | 2 => some .insert
  | 3 => some .update
  | 4 => some .delete
  | _ => none

@[simp] theorem LogicalType.fromTag_tag (ty : LogicalType) : fromTag ty.tag = some ty := by
  cases ty <;> rfl

@[simp] theorem IndexKind.fromTag_tag (kind : IndexKind) : fromTag kind.tag = some kind := by
  cases kind <;> rfl

@[simp] theorem Privilege.fromTag_tag (p : Privilege) : fromTag p.tag = some p := by
  cases p <;> rfl

/-! ### Encoding -/

/-- A result of the catalog log. -/
abbrev LogResult := Except CatalogLogError

/-- A signed 64-bit field. -/
def putI64 (t : ℤ) : Bytes := leBytes 8 (t % 2 ^ 64).toNat

/-- A name, with its length in two bytes. -/
def putStr (s : Name) : LogResult Bytes :=
  if 2 ^ 16 ≤ s.length then .error (.identifierTooLong s.length)
  else .ok (leBytes 2 s.length ++ s)

/-- A byte string, with its length in two bytes. -/
def putBytes (bytes : Bytes) : LogResult Bytes :=
  if 2 ^ 16 ≤ bytes.length then .error (.byteFieldTooLong bytes.length)
  else .ok (leBytes 2 bytes.length ++ bytes)

/-- A count in two bytes. -/
def putCount (e : ℕ → CatalogLogError) (n : ℕ) : LogResult Bytes :=
  if 2 ^ 16 ≤ n then .error (e n) else .ok (leBytes 2 n)

/-- Fields one after another. -/
def putAll {α : Type} (put : α → LogResult Bytes) : List α → LogResult Bytes
  | [] => .ok []
  | a :: as => do
    let bytes ← put a
    let rest ← putAll put as
    pure (bytes ++ rest)

/-- A credential. -/
def putVerifier (v : ScramVerifier) : LogResult Bytes := do
  let salt ← putBytes v.salt
  pure (leBytes 4 v.iterations ++ (salt ++ (Digest.bytes v.storedKey ++ Digest.bytes v.serverKey)))

/-- A column. -/
def putColumn (c : ColumnDef) : LogResult Bytes := do
  let name ← putStr c.name
  pure (name ++ [c.ty.tag])

/-- The valid-time axis. -/
def putValidTime : Option ValidTimeSpec → LogResult Bytes
  | none => .ok [0]
  | some spec => do
    let from_ ← putStr spec.fromColumn
    let to_ ← putStr spec.toColumn
    pure ([1] ++ (from_ ++ to_))

/-- The name a grantee is written as. -/
def Grantee.logName : Grantee → Name
  | .role name => name
  | .everyone => []

/-- A grant or a revoke, after the kind. -/
def putGrant (at_ : SystemTimeMicros) (table : Name) (grantee : Grantee)
    (privileges : List Privilege) : LogResult Bytes := do
  let table ← putStr table
  let name ← putStr grantee.logName
  let count ← putCount .tooManyPrivileges privileges.length
  pure (putI64 at_ ++ (table ++ (name ++ (count ++ privileges.map Privilege.tag))))

/-- The payload of a record. -/
def CatalogRecord.encodePayload : CatalogRecord → LogResult Bytes
  | .createTable at_ ns name columns validTime owner => do
    let name ← putStr name
    let count ← putCount .tooManyColumns columns.length
    let columns ← putAll putColumn columns
    let validTime ← putValidTime validTime
    let body := putI64 at_ ++ (leBytes 8 ns ++ (name ++ (count ++ (columns ++ validTime))))
    match owner with
    | some owner => do
      let owner ← putStr owner
      pure ([8] ++ (body ++ owner))
    | none => pure ([1] ++ body)
  | .dropTable at_ name => do
    let name ← putStr name
    pure ([2] ++ (putI64 at_ ++ name))
  | .createIndex at_ name table kind columns => do
    let name ← putStr name
    let table ← putStr table
    let count ← putCount .tooManyIndexColumns columns.length
    let columns ← putAll putStr columns
    pure ([3] ++ (putI64 at_ ++ (name ++ (table ++ ([kind.tag] ++ (count ++ columns))))))
  | .dropIndex at_ name => do
    let name ← putStr name
    pure ([4] ++ (putI64 at_ ++ name))
  | .createUser at_ name verifier superuser => do
    let name ← putStr name
    let verifier ← putVerifier verifier
    let body := putI64 at_ ++ (name ++ verifier)
    if superuser then pure ([9] ++ (body ++ [1])) else pure ([5] ++ body)
  | .alterUser at_ name verifier => do
    let name ← putStr name
    let verifier ← putVerifier verifier
    pure ([6] ++ (putI64 at_ ++ (name ++ verifier)))
  | .dropUser at_ name => do
    let name ← putStr name
    pure ([7] ++ (putI64 at_ ++ name))
  | .grant at_ table grantee privileges => do
    let body ← putGrant at_ table grantee privileges
    pure ([10] ++ body)
  | .revoke at_ table grantee privileges => do
    let body ← putGrant at_ table grantee privileges
    pure ([11] ++ body)

/-! ### Decoding -/

/-- A reader of a payload. -/
abbrev PayloadCursor := Cursor (Fin 256) CatalogLogError

namespace PayloadCursor

/-- The next `n` bytes. -/
def take (n : ℕ) : PayloadCursor Bytes := Cursor.take .truncated n

/-- A byte. -/
def u8 : PayloadCursor (Fin 256) := do
  let bytes ← take 1
  pure (bytes.headD 0)

/-- Two bytes. -/
def u16 : PayloadCursor ℕ := do
  let bytes ← take 2
  pure (leNat bytes)

/-- Four bytes. -/
def u32 : PayloadCursor (Fin (2 ^ 32)) := do
  let bytes ← take 4
  pure (Fin.ofNat (2 ^ 32) (leNat bytes))

/-- Eight bytes. -/
def u64 : PayloadCursor ℕ := do
  let bytes ← take 8
  pure (leNat bytes)

/-- Eight bytes with a sign. -/
def i64 : PayloadCursor ℤ := do
  let bytes ← take 8
  pure (Int.bmod (leNat bytes) (2 ^ 64))

/-- A name. -/
def string : PayloadCursor Name := do
  let len ← u16
  let bytes ← take len
  if validUtf8 bytes then pure bytes else Cursor.fail .notUtf8

/-- A byte string. -/
def bytes : PayloadCursor Bytes := do
  let len ← u16
  take len

/-- A key of 32 bytes. -/
def key32 : PayloadCursor Digest := do
  let bytes ← take 32
  pure (Digest.ofBytes bytes)

/-- A credential. -/
def verifier : PayloadCursor ScramVerifier := do
  let iterations ← u32
  let salt ← bytes
  let storedKey ← key32
  let serverKey ← key32
  pure ⟨iterations, salt, storedKey, serverKey⟩

/-- A column. -/
def column : PayloadCursor ColumnDef := do
  let name ← string
  let tag ← u8
  let ty ← Cursor.ofOption (.unknownType tag) (LogicalType.fromTag tag)
  if h : name ≠ [] then pure ⟨name, ty, h⟩ else Cursor.fail .column

/-- The valid-time axis. -/
def validTime : PayloadCursor (Option ValidTimeSpec) := do
  let flag ← u8
  if flag = 0 then pure none
  else if flag = 1 then
    let from_ ← string
    let to_ ← string
    if h : from_ ≠ [] ∧ to_ ≠ [] ∧ from_ ≠ to_ then pure (some ⟨from_, to_, h⟩)
    else Cursor.fail .validTime
  else Cursor.fail (.badValidTimeFlag flag)

/-- A privilege. -/
def privilege : PayloadCursor Privilege := do
  let tag ← u8
  Cursor.ofOption (.unknownPrivilege tag) (Privilege.fromTag tag)

/-- A grant or a revoke, after the kind. -/
def grant : PayloadCursor (SystemTimeMicros × Name × Grantee × List Privilege) := do
  let at_ ← i64
  let table ← string
  let name ← string
  let grantee := if name = [] then Grantee.everyone else .role name
  let count ← u16
  let privileges ← privilege.times count
  pure (at_, table, grantee, privileges)

/-- A create of a table, after the kind, up to the owner. -/
def createTable :
    PayloadCursor (SystemTimeMicros × ℕ × Name × List ColumnDef × Option ValidTimeSpec) := do
  let at_ ← i64
  let ns ← u64
  let name ← string
  let count ← u16
  let columns ← column.times count
  let validTime ← validTime
  pure (at_, ns, name, columns, validTime)

/-- An instant and a name. -/
def atName : PayloadCursor (SystemTimeMicros × Name) := do
  let at_ ← i64
  let name ← string
  pure (at_, name)

/-- An index, after the kind. -/
def createIndex : PayloadCursor CatalogRecord := do
  let at_ ← i64
  let name ← string
  let table ← string
  let tag ← u8
  let kind ← Cursor.ofOption (.unknownIndexKind tag) (IndexKind.fromTag tag)
  let count ← u16
  let columns ← string.times count
  pure (.createIndex at_ name table kind columns)

/-- An instant, a name and a credential. -/
def atUser : PayloadCursor (SystemTimeMicros × Name × ScramVerifier) := do
  let at_ ← i64
  let name ← string
  let verifier ← verifier
  pure (at_, name, verifier)

/-- A record, after its kind. -/
def fields (kind : Fin 256) : PayloadCursor CatalogRecord :=
  if kind = 1 then do
    let (at_, ns, name, columns, validTime) ← createTable
    pure (.createTable at_ ns name columns validTime none)
  else if kind = 8 then do
    let (at_, ns, name, columns, validTime) ← createTable
    let owner ← string
    pure (.createTable at_ ns name columns validTime (some owner))
  else if kind = 2 then do
    let (at_, name) ← atName
    pure (.dropTable at_ name)
  else if kind = 3 then createIndex
  else if kind = 4 then do
    let (at_, name) ← atName
    pure (.dropIndex at_ name)
  else if kind = 5 then do
    let (at_, name, verifier) ← atUser
    pure (.createUser at_ name verifier false)
  else if kind = 9 then do
    let (at_, name, verifier) ← atUser
    let flag ← u8
    if flag = 0 then pure (.createUser at_ name verifier false)
    else if flag = 1 then pure (.createUser at_ name verifier true)
    else Cursor.fail (.badSuperuserFlag flag)
  else if kind = 6 then do
    let (at_, name, verifier) ← atUser
    pure (.alterUser at_ name verifier)
  else if kind = 7 then do
    let (at_, name) ← atName
    pure (.dropUser at_ name)
  else if kind = 10 then do
    let (at_, table, grantee, privileges) ← grant
    pure (.grant at_ table grantee privileges)
  else if kind = 11 then do
    let (at_, table, grantee, privileges) ← grant
    pure (.revoke at_ table grantee privileges)
  else Cursor.fail (.unknownKind kind)

/-- A record. -/
def record : PayloadCursor CatalogRecord := do
  let kind ← u8
  fields kind

end PayloadCursor

/-- Read a payload, all of it. -/
def CatalogRecord.decodePayload (payload : Bytes) : LogResult CatalogRecord :=
  match PayloadCursor.record payload with
  | .error e => .error e
  | .ok (record, []) => .ok record
  | .ok (_, _ :: _) => .error .trailingBytes

/-! ### Frames -/

/-- The largest payload a reader accepts. -/
def CatalogLog.maxRecordPayload : ℕ := 16 * 1024 * 1024

/-- The payload that a record is framed with. -/
def CatalogRecord.framedPayload (r : CatalogRecord) : LogResult Bytes := do
  let payload ← r.encodePayload
  if 2 ^ 32 ≤ payload.length then .error .payloadTooLarge else pure payload

/-- What a reader makes of the payload of a frame. -/
def CatalogRecord.readPayload (payload : Bytes) : LogResult CatalogRecord :=
  if CatalogLog.maxRecordPayload < payload.length then .error .recordTooLarge
  else decodePayload payload

/-! ### Reading back -/

/-- The instant of a record. -/
def CatalogRecord.at_ : CatalogRecord → SystemTimeMicros
  | .createTable at_ .. => at_
  | .dropTable at_ _ => at_
  | .createIndex at_ .. => at_
  | .dropIndex at_ _ => at_
  | .createUser at_ .. => at_
  | .alterUser at_ .. => at_
  | .dropUser at_ _ => at_
  | .grant at_ .. => at_
  | .revoke at_ .. => at_

/-- The names in a record. -/
def CatalogRecord.names : CatalogRecord → List Name
  | .createTable _ _ name columns validTime owner =>
    name :: columns.map ColumnDef.name ++
      (validTime.elim [] fun spec => [spec.fromColumn, spec.toColumn]) ++ owner.toList
  | .dropTable _ name => [name]
  | .createIndex _ name table _ columns => name :: table :: columns
  | .dropIndex _ name => [name]
  | .createUser _ name _ _ => [name]
  | .alterUser _ name _ => [name]
  | .dropUser _ name => [name]
  | .grant _ table grantee _ => [table, grantee.logName]
  | .revoke _ table grantee _ => [table, grantee.logName]

/-- The grantee is not a role without a name. -/
def Grantee.Named (g : Grantee) : Prop := g ≠ .role []

instance (g : Grantee) : Decidable g.Named := inferInstanceAs (Decidable (_ ≠ _))

/-- What the types of the fields promise: instants are `i64`s, slices of the disk `u64`s, names are
UTF-8, and a role has a name. -/
def CatalogRecord.WellTyped (r : CatalogRecord) : Prop :=
  FitsI64 r.at_ ∧ (∀ name ∈ r.names, validUtf8 name) ∧
    match r with
    | .createTable _ ns .. => ns < 2 ^ 64
    | .grant _ _ grantee _ => grantee.Named
    | .revoke _ _ grantee _ => grantee.Named
    | _ => True

theorem LogResult.bind_eq_ok {α β : Type} {x : LogResult α} {f : α → LogResult β} {b : β}
    (h : (x >>= f) = .ok b) : ∃ a, x = .ok a ∧ f a = .ok b := by
  cases x with
  | error e => cases h
  | ok a => exact ⟨a, rfl, h⟩

namespace PayloadCursor

open Cursor (Reads)

theorem reads_u8 (b : Fin 256) : Reads u8 [b] b := (Reads.take _ [b]).map _

theorem reads_u16 {n : ℕ} (h : n < 2 ^ 16) : Reads u16 (leBytes 2 n) n := by
  have hr : Reads u16 (leBytes 2 n) (leNat (leBytes 2 n)) := by
    have ht := Reads.take CatalogLogError.truncated (leBytes 2 n)
    rw [length_leBytes] at ht
    exact ht.map _
  rwa [leNat_leBytes (by simpa using h)] at hr

theorem reads_u32 (n : Fin (2 ^ 32)) : Reads u32 (leBytes 4 n) n := by
  have hr : Reads u32 (leBytes 4 n) (Fin.ofNat (2 ^ 32) (leNat (leBytes 4 n))) := by
    have ht := Reads.take CatalogLogError.truncated (leBytes 4 n)
    rw [length_leBytes] at ht
    exact ht.map _
  rwa [leNat_leBytes (by simp), Fin.ofNat_val_eq_self] at hr

theorem reads_u64 {n : ℕ} (h : n < 2 ^ 64) : Reads u64 (leBytes 8 n) n := by
  have hr : Reads u64 (leBytes 8 n) (leNat (leBytes 8 n)) := by
    have ht := Reads.take CatalogLogError.truncated (leBytes 8 n)
    rw [length_leBytes] at ht
    exact ht.map _
  rwa [leNat_leBytes (by simpa using h)] at hr

/-- A signed field reads back. -/
theorem bmod_leNat_putI64 {t : ℤ} (h : FitsI64 t) : Int.bmod (leNat (putI64 t)) (2 ^ 64) = t := by
  have hpos : (0 : ℤ) ≤ t % 2 ^ 64 := Int.emod_nonneg t (by decide)
  have hlt : t % 2 ^ 64 < 2 ^ 64 := Int.emod_lt_of_pos t (by decide)
  have hval : (leNat (putI64 t) : ℤ) = t % 2 ^ 64 := by
    rw [putI64, leNat_leBytes (by omega), Int.toNat_of_nonneg hpos]
  rw [hval]
  have hmod : Int.bmod (t % 2 ^ 64) (2 ^ 64) = Int.bmod t (2 ^ 64) := by
    exact_mod_cast Int.emod_bmod (n := 2 ^ 64) t
  obtain ⟨hmin, hmax⟩ := h
  unfold i64Min at hmin
  unfold i64Max at hmax
  rw [hmod, Int.bmod_eq_of_le]
  · omega
  · omega

theorem reads_i64 {t : ℤ} (h : FitsI64 t) : Reads i64 (putI64 t) t := by
  have hr : Reads i64 (putI64 t) (Int.bmod (leNat (putI64 t)) (2 ^ 64)) := by
    have ht := Reads.take CatalogLogError.truncated (putI64 t)
    rw [putI64, length_leBytes] at ht
    exact ht.map _
  rwa [bmod_leNat_putI64 h] at hr

theorem reads_string {s : Name} {l : Bytes} (h : putStr s = .ok l) (hs : validUtf8 s) :
    Reads string l s := by
  unfold putStr at h
  split_ifs at h with hlen
  cases h
  refine (reads_u16 (not_le.1 hlen)).bind ((Reads.take _ s).bindLast ?_)
  rw [if_pos hs]
  exact Reads.pure s

theorem reads_bytes {s l : Bytes} (h : putBytes s = .ok l) : Reads bytes l s := by
  unfold putBytes at h
  split_ifs at h with hlen
  cases h
  exact (reads_u16 (not_le.1 hlen)).bind (Reads.take _ s)

theorem reads_count {e : ℕ → CatalogLogError} {n : ℕ} {l : Bytes} (h : putCount e n = .ok l) :
    Reads u16 l n := by
  unfold putCount at h
  split_ifs at h with hlen
  cases h
  exact reads_u16 (not_le.1 hlen)

theorem reads_key32 (d : Digest) : Reads key32 d.bytes d := by
  have hr : Reads key32 d.bytes (Digest.ofBytes d.bytes) := by
    have ht := Reads.take CatalogLogError.truncated d.bytes
    rw [Digest.length_bytes] at ht
    exact ht.map _
  rwa [Digest.ofBytes_bytes] at hr

theorem reads_verifier {v : ScramVerifier} {l : Bytes} (h : putVerifier v = .ok l) :
    Reads verifier l v := by
  obtain ⟨salt, hsalt, h⟩ := LogResult.bind_eq_ok h
  cases h
  exact (reads_u32 v.iterations).bind ((reads_bytes hsalt).bind
    ((reads_key32 v.storedKey).bind ((reads_key32 v.serverKey).map _)))

theorem reads_column {c : ColumnDef} {l : Bytes} (h : putColumn c = .ok l)
    (hc : validUtf8 c.name) : Reads column l c := by
  obtain ⟨name, hname, h⟩ := LogResult.bind_eq_ok h
  cases h
  refine (reads_string hname hc).bind ((reads_u8 c.ty.tag).bindLast
    ((Reads.ofOption _ c.ty.fromTag_tag).bindLast ?_))
  rw [dif_pos c.nonempty]
  exact Reads.pure c

/-- Fields of one kind, one after another. -/
theorem reads_times {α : Type} {p : PayloadCursor α} {put : α → LogResult Bytes} {as : List α}
    {l : Bytes} (h : putAll put as = .ok l)
    (hp : ∀ a ∈ as, ∀ bytes, put a = .ok bytes → Reads p bytes a) :
    Reads (p.times as.length) l as := by
  induction as generalizing l with
  | nil =>
    cases h
    exact Reads.pure []
  | cons a as ih =>
    obtain ⟨bytes, ha, h⟩ := LogResult.bind_eq_ok h
    obtain ⟨rest, has, h⟩ := LogResult.bind_eq_ok h
    cases h
    exact (hp a List.mem_cons_self bytes ha).bind
      ((ih has fun b hb => hp b (List.mem_cons_of_mem a hb)).map _)

theorem reads_validTime {v : Option ValidTimeSpec} {l : Bytes} (h : putValidTime v = .ok l)
    (hv : ∀ spec, v = some spec → validUtf8 spec.fromColumn ∧ validUtf8 spec.toColumn) :
    Reads validTime l v := by
  cases v with
  | none =>
    cases h
    exact (reads_u8 0).bind (Reads.pure none)
  | some spec =>
    obtain ⟨from_, hfrom, h⟩ := LogResult.bind_eq_ok h
    obtain ⟨to_, hto, h⟩ := LogResult.bind_eq_ok h
    cases h
    obtain ⟨hf, ht⟩ := hv spec rfl
    refine (reads_u8 1).bind ((reads_string hfrom hf).bind ((reads_string hto ht).bindLast ?_))
    rw [dif_pos spec.distinct]
    exact Reads.pure (some spec)

theorem reads_privilege (p : Privilege) : Reads privilege [p.tag] p :=
  (reads_u8 p.tag).bindLast (Reads.ofOption _ p.fromTag_tag)

theorem reads_privileges (ps : List Privilege) :
    Reads (privilege.times ps.length) (ps.map Privilege.tag) ps := by
  have hforall : List.Forall₂ (fun p l => Reads privilege l p) ps (ps.map fun p => [p.tag]) := by
    rw [List.forall₂_map_right_iff, List.forall₂_same]
    exact fun p _ => reads_privilege p
  have hflat : (ps.map fun p => [p.tag]).flatten = ps.map Privilege.tag := by
    rw [← List.flatMap_def, List.map_eq_flatMap]
  have h := Reads.times hforall
  rwa [hflat] at h

theorem reads_grant {at_ : SystemTimeMicros} {table : Name} {grantee : Grantee}
    {privileges : List Privilege} {l : Bytes} (h : putGrant at_ table grantee privileges = .ok l)
    (hat : FitsI64 at_) (htable : validUtf8 table) (hname : validUtf8 grantee.logName)
    (hg : grantee.Named) : Reads grant l (at_, table, grantee, privileges) := by
  obtain ⟨tableBytes, ht, h⟩ := LogResult.bind_eq_ok h
  obtain ⟨nameBytes, hn, h⟩ := LogResult.bind_eq_ok h
  obtain ⟨count, hc, h⟩ := LogResult.bind_eq_ok h
  cases h
  have hgrantee : (if grantee.logName = [] then Grantee.everyone else .role grantee.logName) =
      grantee := by
    cases grantee with
    | everyone => rfl
    | role name => exact if_neg fun hnil => hg (congrArg Grantee.role hnil)
  refine (reads_i64 hat).bind ((reads_string ht htable).bind ((reads_string hn hname).bind
    ((reads_count hc).bind ((reads_privileges privileges).bindLast ?_))))
  rw [hgrantee]
  exact Reads.pure _

theorem reads_atName {at_ : SystemTimeMicros} {name : Name} {l : Bytes} (h : putStr name = .ok l)
    (hat : FitsI64 at_) (hname : validUtf8 name) : Reads atName (putI64 at_ ++ l) (at_, name) :=
  (reads_i64 hat).bind ((reads_string h hname).map _)

theorem reads_atUser {at_ : SystemTimeMicros} {name : Name} {verifier : ScramVerifier}
    {l l' : Bytes} (h : putStr name = .ok l) (hv : putVerifier verifier = .ok l')
    (hat : FitsI64 at_) (hname : validUtf8 name) :
    Reads atUser (putI64 at_ ++ (l ++ l')) (at_, name, verifier) :=
  (reads_i64 hat).bind ((reads_string h hname).bind ((reads_verifier hv).map _))

/-- The record of a payload that was written is read from it. -/
theorem reads_record {r : CatalogRecord} {l : Bytes} (h : r.encodePayload = .ok l)
    (hr : r.WellTyped) : Reads record l r := by
  obtain ⟨hat, hnames, hr⟩ := hr
  cases r with
  | createTable at_ ns name columns validTime owner =>
    have hnames : validUtf8 name ∧ (∀ c ∈ columns, validUtf8 c.name) ∧
        (∀ spec, validTime = some spec → validUtf8 spec.fromColumn ∧ validUtf8 spec.toColumn) ∧
        ∀ o, owner = some o → validUtf8 o := by
      refine ⟨?_, fun c hc => ?_, fun spec hs => ⟨?_, ?_⟩, fun o ho => ?_⟩ <;>
        refine hnames _ ?_ <;> simp_all [CatalogRecord.names]
      exact .inr (.inl ⟨c, hc, rfl⟩)
    obtain ⟨hname, hcolumns, hvalid, howner⟩ := hnames
    obtain ⟨nameBytes, hn, h⟩ := LogResult.bind_eq_ok h
    obtain ⟨count, hc, h⟩ := LogResult.bind_eq_ok h
    obtain ⟨columnBytes, hcs, h⟩ := LogResult.bind_eq_ok h
    obtain ⟨validBytes, hv, h⟩ := LogResult.bind_eq_ok h
    have hbody : Reads createTable
        (putI64 at_ ++ (leBytes 8 ns ++ (nameBytes ++ (count ++ (columnBytes ++ validBytes)))))
        (at_, ns, name, columns, validTime) :=
      (reads_i64 hat).bind ((reads_u64 hr).bind ((reads_string hn hname).bind
        ((reads_count hc).bind ((reads_times hcs fun c hc' bytes hb =>
          reads_column hb (hcolumns c hc')).bind ((reads_validTime hv hvalid).map _)))))
    cases owner with
    | none =>
      cases h
      exact (reads_u8 1).bind (hbody.map _)
    | some owner =>
      obtain ⟨ownerBytes, ho, h⟩ := LogResult.bind_eq_ok h
      cases h
      exact (reads_u8 8).bind (hbody.bind ((reads_string ho (howner owner rfl)).map _))
  | dropTable at_ name =>
    obtain ⟨nameBytes, hn, h⟩ := LogResult.bind_eq_ok h
    cases h
    exact (reads_u8 2).bind
      ((reads_atName hn hat (hnames name (by simp [CatalogRecord.names]))).map _)
  | createIndex at_ name table kind columns =>
    obtain ⟨nameBytes, hn, h⟩ := LogResult.bind_eq_ok h
    obtain ⟨tableBytes, ht, h⟩ := LogResult.bind_eq_ok h
    obtain ⟨count, hc, h⟩ := LogResult.bind_eq_ok h
    obtain ⟨columnBytes, hcs, h⟩ := LogResult.bind_eq_ok h
    cases h
    have hcols := reads_times hcs fun c hc' bytes hb =>
      reads_string hb (hnames c (by simp [CatalogRecord.names, hc']))
    exact (reads_u8 3).bind ((reads_i64 hat).bind ((reads_string hn
      (hnames name (by simp [CatalogRecord.names]))).bind ((reads_string ht
      (hnames table (by simp [CatalogRecord.names]))).bind ((reads_u8 kind.tag).bind
      ((Reads.ofOption _ kind.fromTag_tag).bind ((reads_count hc).bind (hcols.map _)))))))
  | dropIndex at_ name =>
    obtain ⟨nameBytes, hn, h⟩ := LogResult.bind_eq_ok h
    cases h
    exact (reads_u8 4).bind
      ((reads_atName hn hat (hnames name (by simp [CatalogRecord.names]))).map _)
  | createUser at_ name verifier superuser =>
    obtain ⟨nameBytes, hn, h⟩ := LogResult.bind_eq_ok h
    obtain ⟨verifierBytes, hv, h⟩ := LogResult.bind_eq_ok h
    have hbody := reads_atUser hn hv hat (hnames name (by simp [CatalogRecord.names]))
    cases superuser with
    | false =>
      cases h
      exact (reads_u8 5).bind (hbody.map _)
    | true =>
      cases h
      exact (reads_u8 9).bind (hbody.bind ((reads_u8 1).bindLast (Reads.pure _)))
  | alterUser at_ name verifier =>
    obtain ⟨nameBytes, hn, h⟩ := LogResult.bind_eq_ok h
    obtain ⟨verifierBytes, hv, h⟩ := LogResult.bind_eq_ok h
    cases h
    exact (reads_u8 6).bind ((reads_atUser hn hv hat
      (hnames name (by simp [CatalogRecord.names]))).map _)
  | dropUser at_ name =>
    obtain ⟨nameBytes, hn, h⟩ := LogResult.bind_eq_ok h
    cases h
    exact (reads_u8 7).bind
      ((reads_atName hn hat (hnames name (by simp [CatalogRecord.names]))).map _)
  | grant at_ table grantee privileges =>
    obtain ⟨body, hb, h⟩ := LogResult.bind_eq_ok h
    cases h
    exact (reads_u8 10).bind ((reads_grant hb hat (hnames table (by simp [CatalogRecord.names]))
      (hnames _ (by simp [CatalogRecord.names])) hr).map _)
  | revoke at_ table grantee privileges =>
    obtain ⟨body, hb, h⟩ := LogResult.bind_eq_ok h
    cases h
    exact (reads_u8 11).bind ((reads_grant hb hat (hnames table (by simp [CatalogRecord.names]))
      (hnames _ (by simp [CatalogRecord.names])) hr).map _)

end PayloadCursor

/-- A payload reads back as the record it was made from. -/
theorem CatalogRecord.decodePayload_encodePayload {r : CatalogRecord} {l : Bytes}
    (h : r.encodePayload = .ok l) (hr : r.WellTyped) : decodePayload l = .ok r := by
  have hread := PayloadCursor.reads_record h hr []
  rw [List.append_nil] at hread
  rw [decodePayload, hread]

end SteleDb
