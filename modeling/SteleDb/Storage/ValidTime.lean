import SteleDb.Lib.LittleEndian
import SteleDb.Storage.SysTime

/-!
# The valid-time axis of a payload

A table with a valid-time axis stores with every value the half-open interval in which it is true
in the modelled world, as sixteen little-endian bytes in front of the payload.  The policy is per
table: a write must bring an interval exactly when its table has the axis.

* `unframePayload_framePayload` : what was framed is read back;
* `framePayload_eq_ok` : when a write passes the policy, and what is stored then.
-/

namespace SteleDb

/-- Microseconds on the valid-time axis (an `i64`). -/
abbrev ValidTimeMicros := ℤ

/-- A half-open interval `[start, stop)` of valid time; never empty. -/
structure ValidInterval where
  /-- Inclusive start. -/
  start : ValidTimeMicros
  /-- Exclusive end. -/
  stop : ValidTimeMicros
  /-- Not empty. -/
  lt : start < stop
  /-- The start is an `i64`. -/
  min_le : i64Min ≤ start
  /-- The end is an `i64`. -/
  le_max : stop ≤ i64Max
  deriving DecidableEq

/-- Length of the stored interval. -/
def validTimePrefixLen : ℕ := 16

/-- Errors of the valid-time policy and of reading a stored payload. -/
inductive ValidTimeError where
  /-- The stored interval is empty or inverted. -/
  | emptyInterval (start stop : ValidTimeMicros)
  /-- The table has the axis and the write brings no interval. -/
  | validTimeRequired
  /-- The write brings an interval and the table has no axis. -/
  | validTimeNotSupported
  /-- The stored payload is shorter than an interval. -/
  | truncated
  /-- From the system-time write path. -/
  | sysTime (e : SysTimeError)
  deriving DecidableEq, Repr

/-! ### Little-endian bytes -/

/-- `i64::to_le_bytes`. -/
def i64ToLeBytes (x : ℤ) : Bytes := leBytes 8 (x % 2 ^ 64).toNat

/-- `i64::from_le_bytes`. -/
def i64OfLeBytes (bs : Bytes) : ℤ :=
  let n : ℤ := leNat bs
  if n ≤ i64Max then n else n - 2 ^ 64

/-- The instant fits an `i64`. -/
def FitsI64 (t : ℤ) : Prop := i64Min ≤ t ∧ t ≤ i64Max

instance (t : ℤ) : Decidable (FitsI64 t) := inferInstanceAs (Decidable (_ ∧ _))

theorem i64OfLeBytes_i64ToLeBytes {x : ℤ} (h : i64Min ≤ x) (h' : x ≤ i64Max) :
    i64OfLeBytes (i64ToLeBytes x) = x := by
  have hlt : (x % 2 ^ 64).toNat < 256 ^ 8 := by omega
  simp only [i64OfLeBytes, i64ToLeBytes, leNat_leBytes_mod, Nat.mod_eq_of_lt hlt]
  simp only [i64Min, i64Max] at h h' ⊢
  split_ifs <;> omega

/-! ### Framing -/

namespace ValidInterval

/-- The stored form of an interval. -/
def encodePrefix (i : ValidInterval) : Bytes := i64ToLeBytes i.start ++ i64ToLeBytes i.stop

@[simp] theorem length_encodePrefix (i : ValidInterval) :
    i.encodePrefix.length = validTimePrefixLen := by
  simp [encodePrefix, i64ToLeBytes, validTimePrefixLen]

/-- The boundaries at the head of a stored payload. -/
def decodePrefix (bytes : Bytes) : Except ValidTimeError (ValidTimeMicros × ValidTimeMicros) :=
  if bytes.length < validTimePrefixLen then .error .truncated
  else
    let start := i64OfLeBytes (bytes.take 8)
    let stop := i64OfLeBytes ((bytes.drop 8).take 8)
    if stop ≤ start then .error (.emptyInterval start stop) else .ok (start, stop)

end ValidInterval

/-- The payload a write stores, by the table's policy.  A `NULL` value of a table with the axis is
stored as an empty one, behind the interval. -/
def framePayload (enabled : Bool) (valid : Option ValidInterval) (userPayload : Option Bytes) :
    Except ValidTimeError (Option Bytes) :=
  match enabled, valid with
  | true, some interval => .ok (some (interval.encodePrefix ++ userPayload.getD []))
  | true, none => .error .validTimeRequired
  | false, none => .ok userPayload
  | false, some _ => .error .validTimeNotSupported

/-- The interval and the user's payload of a stored one. -/
def unframePayload (enabled : Bool) (stored : Bytes) :
    Except ValidTimeError (Option (ValidTimeMicros × ValidTimeMicros) × Bytes) :=
  if enabled then
    match ValidInterval.decodePrefix stored with
    | .ok i => .ok (some i, stored.drop validTimePrefixLen)
    | .error e => .error e
  else .ok (none, stored)

theorem framePayload_eq_ok {enabled : Bool} {valid : Option ValidInterval}
    {userPayload framed : Option Bytes} :
    framePayload enabled valid userPayload = .ok framed ↔
      (enabled = false ∧ valid = none ∧ framed = userPayload) ∨
      ∃ i, enabled = true ∧ valid = some i ∧
        framed = some (i.encodePrefix ++ userPayload.getD []) := by
  cases enabled <;> cases valid <;> simp [framePayload, eq_comm]

/-- **Framing a payload and reading it back.** -/
theorem unframePayload_framePayload (i : ValidInterval) (userPayload : Option Bytes) :
    ∃ framed, framePayload true (some i) userPayload = .ok (some framed) ∧
      unframePayload true framed = .ok (some (i.start, i.stop), userPayload.getD []) := by
  refine ⟨i.encodePrefix ++ userPayload.getD [], rfl, ?_⟩
  have hlen : ¬ (i.encodePrefix ++ userPayload.getD []).length < validTimePrefixLen := by
    rw [List.length_append, ValidInterval.length_encodePrefix]; omega
  have h8 : ∀ x : ℤ, (i64ToLeBytes x).length = 8 := fun x => length_leBytes ..
  have hstart : (i.encodePrefix ++ userPayload.getD []).take 8 = i64ToLeBytes i.start := by
    rw [ValidInterval.encodePrefix, List.append_assoc, List.take_left' (h8 _)]
  have hstop : ((i.encodePrefix ++ userPayload.getD []).drop 8).take 8 = i64ToLeBytes i.stop := by
    rw [ValidInterval.encodePrefix, List.append_assoc, List.drop_left' (h8 _),
      List.take_left' (h8 _)]
  simp only [unframePayload, if_true, ValidInterval.decodePrefix, if_neg hlen, hstart, hstop]
  rw [i64OfLeBytes_i64ToLeBytes i.min_le (i.lt.le.trans i.le_max),
    i64OfLeBytes_i64ToLeBytes (i.min_le.trans i.lt.le) i.le_max, if_neg (not_le.2 i.lt)]
  simp only [List.drop_left' (ValidInterval.length_encodePrefix i)]

end SteleDb
