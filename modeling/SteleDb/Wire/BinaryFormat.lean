import SteleDb.Exec.RowPayload
import SteleDb.Session.Digest

/-!
# The binary format of values

A driver may ask for values in the binary format of PostgreSQL: integers most significant byte
first, instants counted from 2000-01-01, ranges as a byte of flags and length-prefixed bounds.
There are two codecs for ranges: the one of the wire layer, whose arithmetic is not checked, and the
one of periods, which refuses what it cannot re-base.

* `encodeBinary_iff` : a value is encoded faithfully exactly if its instants can be re-based;
* `decodeBinary_iff` : bytes are decoded faithfully exactly if the instants in them can be;
* `decodeTsrange_agree`, `encodeTsrange_agree` : where the two codecs of ranges agree.
-/

namespace SteleDb

namespace Wire

/-! ### Numbers -/

/-- `i32::from_be_bytes`. -/
def i32FromBe (bytes : Bytes) : ℤ := i32OfLeBytes bytes.reverse

/-- `i64::from_be_bytes`. -/
def i64FromBe (bytes : Bytes) : ℤ := i64OfLeBytes bytes.reverse

/-- Microseconds from 1970-01-01 to 2000-01-01. -/
def pgEpochUnixMicros : ℤ := 946684800000000

/-- Days from 1970-01-01 to 2000-01-01. -/
def pgEpochUnixDays : ℤ := 10957

/-- Why a binary value is not one of its type. -/
inductive BinaryError where
  | wrongLength (ty : LogicalType) (expected actual : ℕ)
  | notUtf8
  | badRange (reason : String)
  | interval (start stop : ℤ)
  deriving DecidableEq, Repr

/-- How a conversion ends without a result. -/
inductive BinaryFault where
  /-- Arithmetic that is not checked leaves its type. -/
  | overflow
  | refused (e : BinaryError)
  deriving DecidableEq, Repr

/-- A sum or a difference in `i64` that is not checked. -/
def uncheckedI64 (x : ℤ) : Except BinaryFault ℤ :=
  if FitsI64 x then .ok x else .error .overflow

/-- A sum or a difference in `i32` that is not checked. -/
def uncheckedI32 (x : ℤ) : Except BinaryFault ℤ :=
  if FitsI32 x then .ok x else .error .overflow

/-! ### The codec of the wire layer -/

/-- The range is empty. -/
def rangeEmpty : Fin 256 := 0x01

/-- The lower bound is inclusive. -/
def rangeLbInc : Fin 256 := 0x02

/-- The upper bound is inclusive. -/
def rangeUbInc : Fin 256 := 0x04

/-- There is no lower bound. -/
def rangeLbInf : Fin 256 := 0x08

/-- There is no upper bound. -/
def rangeUbInf : Fin 256 := 0x10

/-- One bound: its length, and the instant. -/
def pushBound (unixMicros : ℤ) : Except BinaryFault Bytes :=
  (uncheckedI64 (unixMicros - pgEpochUnixMicros)).map fun pg => i32ToBeBytes 8 ++ i64ToBeBytes pg

/-- A period. -/
def encodeTsrange (start stop : ℤ) : Except BinaryFault Bytes :=
  let isOpen := stop = i64Max
  let flags := if isOpen then rangeLbInc ||| rangeUbInf else rangeLbInc
  (pushBound start).bind fun lower =>
    if isOpen then .ok (flags :: lower)
    else (pushBound stop).map fun upper => flags :: (lower ++ upper)

/-- A value. -/
def encodeBinary : ScalarValue → Except BinaryFault Bytes
  | .int4 v => .ok (i32ToBeBytes v)
  | .int8 v => .ok (i64ToBeBytes v)
  | .float8 bits => .ok (beBytes 8 bits)
  | .bool b => .ok [if b then 1 else 0]
  | .text s => .ok s
  | .bytea raw => .ok raw
  | .uuid raw => .ok raw
  | .timestamp micros | .timestampTz micros =>
    (uncheckedI64 (micros - pgEpochUnixMicros)).map i64ToBeBytes
  | .date days => (uncheckedI32 (days - pgEpochUnixDays)).map i32ToBeBytes
  | .period start stop => encodeTsrange start stop

/-- The bytes, if they have the width of the type. -/
def fixedWidthBytes (ty : LogicalType) (n : ℕ) (bytes : Bytes) : Except BinaryFault Bytes :=
  if bytes.length = n then .ok bytes else .error (.refused (.wrongLength ty n bytes.length))

/-- Split `n` bytes off. -/
def splitN (n : ℕ) (bytes : Bytes) : Except BinaryFault (Bytes × Bytes) :=
  if n ≤ bytes.length then .ok (bytes.take n, bytes.drop n)
  else .error (.refused (.badRange "truncated bound"))

/-- Read a bound. -/
def takeBound (rest : Bytes) : Except BinaryFault (ℤ × Bytes) :=
  (splitN 4 rest).bind fun len =>
    if i32FromBe len.1 ≠ 8 then .error (.refused (.badRange "bound is not an 8-byte timestamp"))
    else (splitN 8 len.2).bind fun micros =>
      (uncheckedI64 (i64FromBe micros.1 + pgEpochUnixMicros)).map fun v => (v, micros.2)

/-- A period, once nothing is left behind its bounds. -/
def finishTsrange (start stop : ℤ) (rest : Bytes) : Except BinaryFault (ℤ × ℤ) :=
  if rest ≠ [] then .error (.refused (.badRange "trailing bytes"))
  else if start ≥ stop then .error (.refused (.interval start stop))
  else .ok (start, stop)

/-- Read a period. -/
def decodeTsrange : Bytes → Except BinaryFault (ℤ × ℤ)
  | [] => .error (.refused (.badRange "empty payload"))
  | flags :: rest =>
    if flags &&& rangeEmpty ≠ 0 then .error (.refused (.badRange "empty range"))
    else if flags &&& rangeLbInf ≠ 0 then .error (.refused (.badRange "unbounded lower bound"))
    else if flags &&& rangeLbInc = 0 then .error (.refused (.badRange "exclusive lower bound"))
    else if flags &&& rangeUbInc ≠ 0 then .error (.refused (.badRange "inclusive upper bound"))
    else (takeBound rest).bind fun lower =>
      if flags &&& rangeUbInf ≠ 0 then finishTsrange lower.1 i64Max lower.2
      else (takeBound lower.2).bind fun upper => finishTsrange lower.1 upper.1 upper.2

/-- A value of a type. -/
def decodeBinary (ty : LogicalType) (bytes : Bytes) : Except BinaryFault ScalarValue :=
  match ty with
  | .int4 => (fixedWidthBytes ty 4 bytes).map fun raw => .int4 (i32FromBe raw)
  | .int8 => (fixedWidthBytes ty 8 bytes).map fun raw => .int8 (i64FromBe raw)
  | .float8 => (fixedWidthBytes ty 8 bytes).map fun raw => .float8 (leNat raw.reverse)
  | .bool => (fixedWidthBytes ty 1 bytes).map fun raw => .bool (raw ≠ [0])
  | .text => if validUtf8 bytes then .ok (.text bytes) else .error (.refused .notUtf8)
  | .bytea => .ok (.bytea bytes)
  | .uuid => (fixedWidthBytes ty 16 bytes).map .uuid
  | .timestamp => (fixedWidthBytes ty 8 bytes).bind fun raw =>
    (uncheckedI64 (i64FromBe raw + pgEpochUnixMicros)).map .timestamp
  | .timestampTz => (fixedWidthBytes ty 8 bytes).bind fun raw =>
    (uncheckedI64 (i64FromBe raw + pgEpochUnixMicros)).map .timestampTz
  | .date => (fixedWidthBytes ty 4 bytes).bind fun raw =>
    (uncheckedI32 (i32FromBe raw + pgEpochUnixDays)).map .date
  | .period => (decodeTsrange bytes).map fun p => .period p.1 p.2

/-! ### The codec of periods -/

/-- Why bytes are not a period. -/
inductive PeriodWireError where
  | empty
  | emptyRange
  | unsupportedLowerBound
  | unsupportedUpperBound
  | badElementLength
  | timestampOutOfRange
  | truncated
  | trailingBytes
  | interval (start stop : ℤ)
  deriving DecidableEq, Repr

/-- Write a bound, if it can be re-based. -/
def pushTimestamp (unixMicros : ℤ) : Except PeriodWireError Bytes :=
  if FitsI64 (unixMicros - pgEpochUnixMicros) then
    .ok (i32ToBeBytes 8 ++ i64ToBeBytes (unixMicros - pgEpochUnixMicros))
  else .error .timestampOutOfRange

/-- Write a period. -/
def toPgBinary (start stop : ℤ) : Except PeriodWireError Bytes :=
  let openUpper := stop = i64Max
  let flags := if openUpper then rangeLbInc ||| rangeUbInf else rangeLbInc
  (pushTimestamp start).bind fun lower =>
    if openUpper then .ok (flags :: lower)
    else (pushTimestamp stop).map fun upper => flags :: (lower ++ upper)

/-- Read a bound, if it can be re-based. -/
def popTimestamp (rest : Bytes) : Except PeriodWireError (ℤ × Bytes) :=
  if rest.length < 4 then .error .truncated
  else if i32FromBe (rest.take 4) ≠ 8 then .error .badElementLength
  else if (rest.drop 4).length < 8 then .error .truncated
  else
    let micros := i64FromBe ((rest.drop 4).take 8) + pgEpochUnixMicros
    if FitsI64 micros then .ok (micros, (rest.drop 4).drop 8) else .error .timestampOutOfRange

/-- A period, once nothing is left behind its bounds. -/
def finishPeriod (start stop : ℤ) (rest : Bytes) : Except PeriodWireError (ℤ × ℤ) :=
  if rest ≠ [] then .error .trailingBytes
  else if start ≥ stop then .error (.interval start stop)
  else .ok (start, stop)

/-- Read a period. -/
def fromPgBinary : Bytes → Except PeriodWireError (ℤ × ℤ)
  | [] => .error .empty
  | flags :: rest =>
    if flags &&& rangeEmpty ≠ 0 then .error .emptyRange
    else if flags &&& rangeLbInf ≠ 0 ∨ flags &&& rangeLbInc = 0 then .error .unsupportedLowerBound
    else (popTimestamp rest).bind fun lower =>
      if flags &&& rangeUbInf ≠ 0 then finishPeriod lower.1 i64Max lower.2
      else if flags &&& rangeUbInc ≠ 0 then .error .unsupportedUpperBound
      else (popTimestamp lower.2).bind fun upper => finishPeriod lower.1 upper.1 upper.2

/-! ### Reading and writing numbers -/

theorem length_i32ToBeBytes (x : ℤ) : (i32ToBeBytes x).length = 4 := by
  rw [i32ToBeBytes, List.length_reverse, ScalarValue.length_i32ToLeBytes]

theorem length_i64ToBeBytes (x : ℤ) : (i64ToBeBytes x).length = 8 := by
  rw [i64ToBeBytes, List.length_reverse, ScalarValue.length_i64ToLeBytes]

theorem i32FromBe_i32ToBeBytes {x : ℤ} (h : FitsI32 x) : i32FromBe (i32ToBeBytes x) = x := by
  rw [i32FromBe, i32ToBeBytes, List.reverse_reverse, i32OfLeBytes_i32ToLeBytes h]

theorem i64FromBe_i64ToBeBytes {x : ℤ} (h : FitsI64 x) : i64FromBe (i64ToBeBytes x) = x := by
  rw [i64FromBe, i64ToBeBytes, List.reverse_reverse, i64OfLeBytes_i64ToLeBytes h.1 h.2]

theorem fixedWidthBytes_ok {ty : LogicalType} {n : ℕ} {bytes : Bytes} (h : bytes.length = n) :
    fixedWidthBytes ty n bytes = .ok bytes := if_pos h

theorem fixedWidthBytes_refused {ty : LogicalType} {n : ℕ} {bytes : Bytes} (h : bytes.length ≠ n) :
    fixedWidthBytes ty n bytes = .error (.refused (.wrongLength ty n bytes.length)) := if_neg h

/-! ### Bounds -/

/-- The number that a bound spells, and what follows it. -/
def boundOf (rest : Bytes) : Option (ℤ × Bytes) :=
  if 12 ≤ rest.length ∧ i32FromBe (rest.take 4) = 8 then
    some (i64FromBe ((rest.drop 4).take 8), rest.drop 12)
  else none

theorem boundOf_append {z : ℤ} (h : FitsI64 z) (tail : Bytes) :
    boundOf (i32ToBeBytes 8 ++ i64ToBeBytes z ++ tail) = some (z, tail) := by
  have h4 := length_i32ToBeBytes 8
  have h8 := length_i64ToBeBytes z
  have htake : (i32ToBeBytes 8 ++ (i64ToBeBytes z ++ tail)).take 4 = i32ToBeBytes 8 :=
    List.take_left' h4
  have hdrop : (i32ToBeBytes 8 ++ (i64ToBeBytes z ++ tail)).drop 4 = i64ToBeBytes z ++ tail :=
    List.drop_left' h4
  have hrest : (i32ToBeBytes 8 ++ (i64ToBeBytes z ++ tail)).drop 12 = tail := by
    rw [show 12 = 4 + 8 from rfl, ← List.drop_drop, hdrop, List.drop_left' h8]
  have hlen : 12 ≤ (i32ToBeBytes 8 ++ (i64ToBeBytes z ++ tail)).length := by
    rw [List.length_append, List.length_append, h4, h8]
    omega
  rw [boundOf, List.append_assoc, htake, hdrop, hrest, List.take_left' h8, i64FromBe_i64ToBeBytes h,
    if_pos ⟨hlen, i32FromBe_i32ToBeBytes (by decide)⟩]

/-- What the two codecs make of a bound: it is not one, it can be re-based, or it cannot. -/
inductive BoundRead (rest : Bytes) : Prop where
  | refused (none : boundOf rest = none) (wire : ∃ e, takeBound rest = .error (.refused e))
    (period : ∃ e, popTimestamp rest = .error e)
  | read (z : ℤ) (tail : Bytes) (bound : boundOf rest = some (z, tail))
    (fits : FitsI64 (z + pgEpochUnixMicros))
    (wire : takeBound rest = .ok (z + pgEpochUnixMicros, tail))
    (period : popTimestamp rest = .ok (z + pgEpochUnixMicros, tail))
  | overflow (z : ℤ) (tail : Bytes) (bound : boundOf rest = some (z, tail))
    (notFits : ¬FitsI64 (z + pgEpochUnixMicros)) (wire : takeBound rest = .error .overflow)
    (period : ∃ e, popTimestamp rest = .error e)

theorem boundRead (rest : Bytes) : BoundRead rest := by
  by_cases h4 : rest.length < 4
  · refine .refused (if_neg (by omega)) ⟨.badRange "truncated bound", ?_⟩ ⟨_, if_pos h4⟩
    rw [takeBound, splitN, if_neg (by omega)]
    rfl
  by_cases hword : i32FromBe (rest.take 4) = 8
  · by_cases h8 : (rest.drop 4).length < 8
    · refine .refused (if_neg ?_) ⟨.badRange "truncated bound", ?_⟩ ⟨.truncated, ?_⟩
      · rw [List.length_drop] at h8
        omega
      · rw [takeBound, splitN, if_pos (by omega), Except.bind, if_neg (by simp [hword]), splitN,
          if_neg (by simpa using h8)]
        rfl
      · rw [popTimestamp, if_neg h4, if_neg (by simp [hword]), if_pos h8]
    · have hbound : boundOf rest =
          some (i64FromBe ((rest.drop 4).take 8), (rest.drop 4).drop 8) := by
        rw [boundOf, if_pos ⟨by rw [List.length_drop] at h8; omega, hword⟩, List.drop_drop]
      have hwire : takeBound rest =
          (uncheckedI64 (i64FromBe ((rest.drop 4).take 8) + pgEpochUnixMicros)).map
            fun v => (v, (rest.drop 4).drop 8) := by
        rw [takeBound, splitN, if_pos (by omega), Except.bind, if_neg (by simp [hword]), splitN,
          if_pos (by simpa using h8)]
        rfl
      have hperiod : popTimestamp rest =
          if FitsI64 (i64FromBe ((rest.drop 4).take 8) + pgEpochUnixMicros) then
            .ok (i64FromBe ((rest.drop 4).take 8) + pgEpochUnixMicros, (rest.drop 4).drop 8)
          else .error .timestampOutOfRange := by
        rw [popTimestamp, if_neg h4, if_neg (by simp [hword]), if_neg h8]
      by_cases hfits : FitsI64 (i64FromBe ((rest.drop 4).take 8) + pgEpochUnixMicros)
      · refine .read _ _ hbound hfits ?_ (hperiod.trans (if_pos hfits))
        rw [hwire, uncheckedI64, if_pos hfits]
        rfl
      · refine .overflow _ _ hbound hfits ?_ ⟨_, hperiod.trans (if_neg hfits)⟩
        rw [hwire, uncheckedI64, if_neg hfits]
        rfl
  · refine .refused (if_neg (by simp [hword]))
      ⟨.badRange "bound is not an 8-byte timestamp", ?_⟩ ⟨.badElementLength, ?_⟩
    · rw [takeBound, splitN, if_pos (by omega), Except.bind, if_pos hword]
    · rw [popTimestamp, if_neg h4, if_pos hword]

theorem pushBound_of_fits {x : ℤ} (h : FitsI64 (x - pgEpochUnixMicros)) :
    pushBound x = .ok (i32ToBeBytes 8 ++ i64ToBeBytes (x - pgEpochUnixMicros)) := by
  rw [pushBound, uncheckedI64, if_pos h]
  rfl

theorem pushBound_overflow {x : ℤ} (h : ¬FitsI64 (x - pgEpochUnixMicros)) :
    pushBound x = .error .overflow := by
  rw [pushBound, uncheckedI64, if_neg h]
  rfl

/-- A bound that was written is read back. -/
theorem takeBound_append {x : ℤ} (hx : FitsI64 x) (h : FitsI64 (x - pgEpochUnixMicros))
    (tail : Bytes) :
    takeBound (i32ToBeBytes 8 ++ i64ToBeBytes (x - pgEpochUnixMicros) ++ tail) = .ok (x, tail) := by
  have hbound := boundOf_append h tail
  have hback : x - pgEpochUnixMicros + pgEpochUnixMicros = x := by omega
  cases boundRead (i32ToBeBytes 8 ++ i64ToBeBytes (x - pgEpochUnixMicros) ++ tail) with
  | refused none => cases hbound.symm.trans none
  | read z rest bound fits wire =>
    cases hbound.symm.trans bound
    rw [wire, hback]
  | overflow z rest bound notFits =>
    cases hbound.symm.trans bound
    exact absurd (hback.symm ▸ hx) notFits

/-! ### Values out -/

/-- The binary form of a value. -/
def PgForm : ScalarValue → Bytes → Prop
  | .int4 v, bytes => bytes.length = 4 ∧ i32FromBe bytes = v
  | .int8 v, bytes => bytes.length = 8 ∧ i64FromBe bytes = v
  | .float8 bits, bytes => bytes.length = 8 ∧ leNat bytes.reverse = bits
  | .bool b, bytes => bytes = [if b then 1 else 0]
  | .text raw, bytes | .bytea raw, bytes | .uuid raw, bytes => bytes = raw
  | .timestamp micros, bytes | .timestampTz micros, bytes =>
    bytes.length = 8 ∧ i64FromBe bytes = micros - pgEpochUnixMicros
  | .date days, bytes => bytes.length = 4 ∧ i32FromBe bytes = days - pgEpochUnixDays
  | .period start stop, bytes => ∃ rest tail,
    boundOf rest = some (start - pgEpochUnixMicros, tail) ∧
      if stop = i64Max then bytes = 0x12 :: rest ∧ tail = []
      else bytes = 0x02 :: rest ∧ boundOf tail = some (stop - pgEpochUnixMicros, [])

/-- A value is refused, or encoded in its binary form and read back. -/
def EncodesFaithfully (v : ScalarValue) : Prop :=
  (∃ e, encodeBinary v = .error (.refused e)) ∨
    ∃ bytes, encodeBinary v = .ok bytes ∧ PgForm v bytes ∧
      decodeBinary v.logicalType bytes = .ok v

/-- The instants of a value can be counted from 2000-01-01. -/
def CountsFrom2000 : ScalarValue → Prop
  | .timestamp micros | .timestampTz micros => FitsI64 (micros - pgEpochUnixMicros)
  | .date days => FitsI32 (days - pgEpochUnixDays)
  | .period start _ => FitsI64 (start - pgEpochUnixMicros)
  | _ => True

/-- The later of two instants can be counted from 2000-01-01 if the earlier can. -/
theorem fits_stop {start stop : ℤ} (hstop : FitsI64 stop) (hlt : start < stop)
    (h : FitsI64 (start - pgEpochUnixMicros)) : FitsI64 (stop - pgEpochUnixMicros) := by
  obtain ⟨-, hmax⟩ := hstop
  obtain ⟨hmin, -⟩ := h
  constructor
  · omega
  · unfold pgEpochUnixMicros
    omega

theorem encodeTsrange_overflow {start stop : ℤ} (h : ¬FitsI64 (start - pgEpochUnixMicros)) :
    encodeTsrange start stop = .error .overflow := by
  rw [encodeTsrange, pushBound_overflow h]
  rfl

theorem encodeTsrange_of_fits {start stop : ℤ} (hstop : FitsI64 stop) (hlt : start < stop)
    (h : FitsI64 (start - pgEpochUnixMicros)) :
    encodeTsrange start stop = .ok
      (if stop = i64Max then 0x12 :: (i32ToBeBytes 8 ++ i64ToBeBytes (start - pgEpochUnixMicros))
      else 0x02 :: (i32ToBeBytes 8 ++ i64ToBeBytes (start - pgEpochUnixMicros) ++
        (i32ToBeBytes 8 ++ i64ToBeBytes (stop - pgEpochUnixMicros)))) := by
  rw [encodeTsrange, pushBound_of_fits h]
  split_ifs with hopen
  · simp [Except.bind]
    rfl
  · rw [pushBound_of_fits (fits_stop hstop hlt h)]
    simp [Except.bind]
    rfl

theorem decodeTsrange_encode {start stop : ℤ} (hstart : FitsI64 start) (hstop : FitsI64 stop)
    (hlt : start < stop) (h : FitsI64 (start - pgEpochUnixMicros)) :
    decodeTsrange
      (if stop = i64Max then 0x12 :: (i32ToBeBytes 8 ++ i64ToBeBytes (start - pgEpochUnixMicros))
      else 0x02 :: (i32ToBeBytes 8 ++ i64ToBeBytes (start - pgEpochUnixMicros) ++
        (i32ToBeBytes 8 ++ i64ToBeBytes (stop - pgEpochUnixMicros)))) = .ok (start, stop) := by
  have hfinish : finishTsrange start stop [] = .ok (start, stop) := by
    rw [finishTsrange, if_neg (by simp), if_neg (by omega)]
  split_ifs with hopen
  · have hlower := takeBound_append hstart h []
    rw [List.append_nil] at hlower
    rw [decodeTsrange, if_neg (by decide), if_neg (by decide), if_neg (by decide),
      if_neg (by decide), hlower, Except.bind, if_pos (by decide), ← hopen, hfinish]
  · have hlower := takeBound_append hstart h
      (i32ToBeBytes 8 ++ i64ToBeBytes (stop - pgEpochUnixMicros))
    have hupper := takeBound_append hstop (fits_stop hstop hlt h) []
    rw [List.append_nil] at hupper
    rw [decodeTsrange, if_neg (by decide), if_neg (by decide), if_neg (by decide),
      if_neg (by decide), hlower, Except.bind, if_neg (by decide), hupper, Except.bind, hfinish]

theorem not_encodesFaithfully {v : ScalarValue} (h : encodeBinary v = .error .overflow) :
    ¬EncodesFaithfully v := by
  rintro (⟨e, he⟩ | ⟨bytes, hbytes, -⟩)
  · cases h.symm.trans he
  · cases h.symm.trans hbytes

theorem encodesFaithfully_timestamp {make : ℤ → ScalarValue} {micros : ℤ} (hm : FitsI64 micros)
    (h : FitsI64 (micros - pgEpochUnixMicros))
    (henc : encodeBinary (make micros) =
      (uncheckedI64 (micros - pgEpochUnixMicros)).map i64ToBeBytes)
    (hform : ∀ bytes, PgForm (make micros) bytes ↔
      bytes.length = 8 ∧ i64FromBe bytes = micros - pgEpochUnixMicros)
    (hdec : ∀ bytes, bytes.length = 8 → decodeBinary (make micros).logicalType bytes =
      (uncheckedI64 (i64FromBe bytes + pgEpochUnixMicros)).map make) :
    EncodesFaithfully (make micros) := by
  have hread := i64FromBe_i64ToBeBytes h
  have hback : micros - pgEpochUnixMicros + pgEpochUnixMicros = micros := by omega
  refine .inr ⟨i64ToBeBytes (micros - pgEpochUnixMicros), ?_, ?_, ?_⟩
  · rw [henc, uncheckedI64, if_pos h]
    rfl
  · exact (hform _).2 ⟨length_i64ToBeBytes _, hread⟩
  · rw [hdec _ (length_i64ToBeBytes _), hread, hback, uncheckedI64, if_pos hm]
    rfl

/-- **A value is encoded faithfully exactly if its instants can be counted from 2000-01-01.** -/
theorem encodeBinary_iff {v : ScalarValue} (h : v.WellFormed) :
    EncodesFaithfully v ↔ CountsFrom2000 v := by
  have hfits := h.fits
  cases v with
  | int4 x =>
    refine iff_of_true (.inr ⟨i32ToBeBytes x, rfl,
      ⟨length_i32ToBeBytes x, i32FromBe_i32ToBeBytes hfits⟩, ?_⟩) trivial
    rw [ScalarValue.logicalType, decodeBinary, fixedWidthBytes_ok (length_i32ToBeBytes x),
      Except.map, i32FromBe_i32ToBeBytes hfits]
  | int8 x =>
    refine iff_of_true (.inr ⟨i64ToBeBytes x, rfl,
      ⟨length_i64ToBeBytes x, i64FromBe_i64ToBeBytes hfits⟩, ?_⟩) trivial
    rw [ScalarValue.logicalType, decodeBinary, fixedWidthBytes_ok (length_i64ToBeBytes x),
      Except.map, i64FromBe_i64ToBeBytes hfits]
  | float8 bits =>
    have hlt : bits < 256 ^ 8 := lt_of_lt_of_eq hfits (by norm_num)
    have hlen : (beBytes 8 bits).length = 8 := by rw [beBytes, List.length_reverse, length_leBytes]
    have hread : leNat (beBytes 8 bits).reverse = bits := by
      rw [beBytes, List.reverse_reverse, leNat_leBytes hlt]
    refine iff_of_true (.inr ⟨beBytes 8 bits, rfl, ⟨hlen, hread⟩, ?_⟩) trivial
    rw [ScalarValue.logicalType, decodeBinary, fixedWidthBytes_ok hlen, Except.map, hread]
  | bool b =>
    refine iff_of_true (.inr ⟨[if b then 1 else 0], rfl, rfl, ?_⟩) trivial
    cases b <;> rfl
  | text raw => exact iff_of_true (.inr ⟨raw, rfl, rfl, if_pos (h.utf8 raw rfl)⟩) trivial
  | bytea raw => exact iff_of_true (.inr ⟨raw, rfl, rfl, rfl⟩) trivial
  | uuid raw =>
    refine iff_of_true (.inr ⟨raw, rfl, rfl, ?_⟩) trivial
    rw [ScalarValue.logicalType, decodeBinary, fixedWidthBytes_ok hfits, Except.map]
  | timestamp micros | timestampTz micros =>
    by_cases hc : FitsI64 (micros - pgEpochUnixMicros)
    · refine iff_of_true (encodesFaithfully_timestamp hfits hc rfl (fun _ => Iff.rfl) ?_) hc
      intro bytes hlen
      rw [ScalarValue.logicalType, decodeBinary, fixedWidthBytes_ok hlen]
      rfl
    · refine iff_of_false (not_encodesFaithfully ?_) hc
      rw [encodeBinary, uncheckedI64, if_neg hc]
      rfl
  | date days =>
    by_cases hc : FitsI32 (days - pgEpochUnixDays)
    · have hread := i32FromBe_i32ToBeBytes hc
      have hback : days - pgEpochUnixDays + pgEpochUnixDays = days := by omega
      refine iff_of_true (.inr ⟨i32ToBeBytes (days - pgEpochUnixDays), ?_,
        ⟨length_i32ToBeBytes _, hread⟩, ?_⟩)
        hc
      · rw [encodeBinary, uncheckedI32, if_pos hc]
        rfl
      · rw [ScalarValue.logicalType, decodeBinary, fixedWidthBytes_ok (length_i32ToBeBytes _),
          Except.bind, hread, hback, uncheckedI32, if_pos (show FitsI32 days from hfits)]
        rfl
    · refine iff_of_false (not_encodesFaithfully ?_) hc
      rw [encodeBinary, uncheckedI32, if_neg hc]
      rfl
  | period start stop =>
    have hlt := h.ordered start stop rfl
    by_cases hc : FitsI64 (start - pgEpochUnixMicros)
    · have hlower := boundOf_append hc
      have hupper := boundOf_append (fits_stop hfits.2 hlt hc) []
      rw [List.append_nil] at hupper
      refine iff_of_true (.inr ⟨_, encodeTsrange_of_fits hfits.2 hlt hc, ?_, ?_⟩) hc
      · by_cases hopen : stop = i64Max
        · refine ⟨_, [], (hlower []), ?_⟩
          rw [if_pos hopen, if_pos hopen, List.append_nil]
          exact ⟨rfl, rfl⟩
        · refine ⟨_, _, hlower (i32ToBeBytes 8 ++ i64ToBeBytes (stop - pgEpochUnixMicros)), ?_⟩
          rw [if_neg hopen, if_neg hopen]
          exact ⟨rfl, hupper⟩
      · rw [ScalarValue.logicalType, decodeBinary, decodeTsrange_encode hfits.1 hfits.2 hlt hc]
        rfl
    · exact iff_of_false (not_encodesFaithfully (encodeTsrange_overflow hc)) hc

/-! ### Values in -/

/-- The codec of the wire layer goes on to the bounds. -/
def ReadsBounds (flags : Fin 256) : Prop :=
  flags &&& rangeEmpty = 0 ∧ flags &&& rangeLbInf = 0 ∧ flags &&& rangeLbInc ≠ 0 ∧
    flags &&& rangeUbInc = 0

instance (flags : Fin 256) : Decidable (ReadsBounds flags) := inferInstanceAs (Decidable (_ ∧ _))

/-- The numbers that the bounds of a range spell. -/
def boundsOf (flags : Fin 256) (rest : Bytes) : List ℤ :=
  (boundOf rest).elim [] fun lower =>
    lower.1 :: if flags &&& rangeUbInf ≠ 0 then [] else ((boundOf lower.2).map Prod.fst).toList

/-- The instants in bytes can be counted from 1970-01-01. -/
def CountsFrom1970 : LogicalType → Bytes → Prop
  | .timestamp, bytes | .timestampTz, bytes =>
    bytes.length = 8 → FitsI64 (i64FromBe bytes + pgEpochUnixMicros)
  | .date, bytes => bytes.length = 4 → FitsI32 (i32FromBe bytes + pgEpochUnixDays)
  | .period, flags :: rest =>
    ReadsBounds flags → ∀ z ∈ boundsOf flags rest, FitsI64 (z + pgEpochUnixMicros)
  | _, _ => True

/-- The instants of a value are those that the bytes name. -/
def SameInstants (bytes : Bytes) : ScalarValue → Prop
  | .timestamp micros | .timestampTz micros => micros = i64FromBe bytes + pgEpochUnixMicros
  | .date days => days = i32FromBe bytes + pgEpochUnixDays
  | .period start stop => ∃ flags rest, bytes = flags :: rest ∧
    (boundsOf flags rest).map (· + pgEpochUnixMicros) =
      (if flags &&& rangeUbInf ≠ 0 then [start] else [start, stop]) ∧
    (flags &&& rangeUbInf ≠ 0 → stop = i64Max)
  | _ => True

/-- Bytes are decoded without leaving a type, to the instants that they name. -/
def DecodesFaithfully (ty : LogicalType) (bytes : Bytes) : Prop :=
  decodeBinary ty bytes ≠ .error .overflow ∧
    ∀ v, decodeBinary ty bytes = .ok v → SameInstants bytes v

theorem finishTsrange_cases (start stop : ℤ) (rest : Bytes) :
    (∃ e, finishTsrange start stop rest = .error (.refused e)) ∨
      finishTsrange start stop rest = .ok (start, stop) := by
  rw [finishTsrange]
  split_ifs
  · exact .inl ⟨_, rfl⟩
  · exact .inl ⟨_, rfl⟩
  · exact .inr rfl

theorem decodeTsrange_refused {flags : Fin 256} (h : ¬ReadsBounds flags) (rest : Bytes) :
    ∃ e, decodeTsrange (flags :: rest) = .error (.refused e) := by
  rw [decodeTsrange]
  split_ifs with hempty hinf hinc hub
  · exact ⟨_, rfl⟩
  · exact ⟨_, rfl⟩
  · exact ⟨_, rfl⟩
  · exact ⟨_, rfl⟩
  all_goals exact absurd ⟨not_not.1 hempty, not_not.1 hinf, hinc, not_not.1 hub⟩ h

theorem decodeTsrange_of_readsBounds {flags : Fin 256} (h : ReadsBounds flags) (rest : Bytes) :
    decodeTsrange (flags :: rest) = (takeBound rest).bind fun lower =>
      if flags &&& rangeUbInf ≠ 0 then finishTsrange lower.1 i64Max lower.2
      else (takeBound lower.2).bind fun upper => finishTsrange lower.1 upper.1 upper.2 := by
  obtain ⟨hempty, hinf, hinc, hub⟩ := h
  rw [decodeTsrange, if_neg (by simp [hempty]), if_neg (by simp [hinf]), if_neg hinc,
    if_neg (by simp [hub])]

/-- What becomes of a range whose bounds are read. -/
theorem decodeTsrange_cases {flags : Fin 256} (h : ReadsBounds flags) (rest : Bytes) :
    ((∃ e, decodeTsrange (flags :: rest) = .error (.refused e)) ∧
      ∀ z ∈ boundsOf flags rest, FitsI64 (z + pgEpochUnixMicros)) ∨
    (decodeTsrange (flags :: rest) = .error .overflow ∧
      ∃ z ∈ boundsOf flags rest, ¬FitsI64 (z + pgEpochUnixMicros)) ∨
    ∃ start stop, decodeTsrange (flags :: rest) = .ok (start, stop) ∧
      (∀ z ∈ boundsOf flags rest, FitsI64 (z + pgEpochUnixMicros)) ∧
      SameInstants (flags :: rest) (.period start stop) := by
  rw [decodeTsrange_of_readsBounds h]
  cases boundRead rest with
  | refused hnone hwire =>
    obtain ⟨e, he⟩ := hwire
    refine .inl ⟨⟨e, by rw [he]; rfl⟩, ?_⟩
    rw [boundsOf, hnone]
    exact fun z hz => absurd hz List.not_mem_nil
  | overflow z tail hbound hnot hwire =>
    refine .inr (.inl ⟨by rw [hwire]; rfl, z, ?_, hnot⟩)
    rw [boundsOf, hbound]
    exact List.mem_cons_self
  | read z tail hbound hfits hwire =>
    rw [hwire, Except.bind]
    by_cases hinf : flags &&& rangeUbInf ≠ 0
    · have hbounds : boundsOf flags rest = [z] := by
        rw [boundsOf, hbound, Option.elim_some, if_pos hinf]
      rw [if_pos hinf, hbounds]
      have hall : ∀ w ∈ [z], FitsI64 (w + pgEpochUnixMicros) := by
        intro w hw
        rw [List.mem_singleton.1 hw]
        exact hfits
      rcases finishTsrange_cases (z + pgEpochUnixMicros) i64Max tail with hrefused | hok
      · exact .inl ⟨hrefused, hall⟩
      · refine .inr (.inr ⟨_, _, hok, hall, flags, rest, rfl, ?_, fun _ => rfl⟩)
        rw [hbounds, if_pos hinf]
        rfl
    · rw [if_neg hinf]
      cases boundRead tail with
      | refused hnone hwire' =>
        obtain ⟨e, he⟩ := hwire'
        refine .inl ⟨⟨e, by rw [he]; rfl⟩, ?_⟩
        intro w hw
        rw [boundsOf, hbound, Option.elim_some, if_neg hinf, hnone] at hw
        rw [List.mem_singleton.1 hw]
        exact hfits
      | overflow w tail' hbound' hnot hwire' =>
        refine .inr (.inl ⟨by rw [hwire']; rfl, w, ?_, hnot⟩)
        rw [boundsOf, hbound, Option.elim_some, if_neg hinf, hbound']
        exact List.mem_cons_of_mem _ List.mem_cons_self
      | read w tail' hbound' hfits' hwire' =>
        have hbounds : boundsOf flags rest = [z, w] := by
          rw [boundsOf, hbound, Option.elim_some, if_neg hinf, hbound']
          rfl
        have hall : ∀ y ∈ [z, w], FitsI64 (y + pgEpochUnixMicros) := by
          intro y hy
          rcases List.mem_cons.1 hy with rfl | hy
          · exact hfits
          · rw [List.mem_singleton.1 hy]
            exact hfits'
        rw [hwire', Except.bind, hbounds]
        rcases finishTsrange_cases (z + pgEpochUnixMicros) (w + pgEpochUnixMicros) tail' with
          hrefused | hok
        · exact .inl ⟨hrefused, hall⟩
        · refine .inr (.inr ⟨_, _, hok, hall, flags, rest, rfl, ?_, fun hno => absurd hno hinf⟩)
          rw [hbounds, if_neg hinf]
          rfl

theorem decodesFaithfully_period (bytes : Bytes) :
    DecodesFaithfully .period bytes ↔ CountsFrom1970 .period bytes := by
  have hdecode : decodeBinary .period bytes = (decodeTsrange bytes).map fun p => .period p.1 p.2 :=
    rfl
  rw [DecodesFaithfully, hdecode]
  cases bytes with
  | nil => exact iff_of_true ⟨nofun, fun v hv => by cases hv⟩ trivial
  | cons flags rest =>
    by_cases hreads : ReadsBounds flags
    · rcases decodeTsrange_cases hreads rest with ⟨⟨e, he⟩, hall⟩ | ⟨hover, z, hz, hnot⟩ |
        ⟨start, stop, hok, hall, hsame⟩
      · rw [he]
        exact iff_of_true ⟨nofun, fun v hv => by cases hv⟩ fun _ => hall
      · rw [hover]
        exact iff_of_false (fun h => h.1 rfl) fun h => hnot (h hreads z hz)
      · rw [hok]
        refine iff_of_true ⟨nofun, fun v hv => ?_⟩ fun _ => hall
        cases hv
        exact hsame
    · obtain ⟨e, he⟩ := decodeTsrange_refused hreads rest
      rw [he]
      exact iff_of_true ⟨nofun, fun v hv => by cases hv⟩ fun h => absurd h hreads

/-- **Bytes are decoded faithfully exactly if the instants in them can be counted from
1970-01-01.** -/
theorem decodeBinary_iff (ty : LogicalType) (bytes : Bytes) :
    DecodesFaithfully ty bytes ↔ CountsFrom1970 ty bytes := by
  cases ty
  case period => exact decodesFaithfully_period bytes
  case timestamp | timestampTz =>
    rw [DecodesFaithfully, decodeBinary, CountsFrom1970]
    by_cases hlen : bytes.length = 8
    · rw [fixedWidthBytes_ok hlen, Except.bind]
      by_cases hfits : FitsI64 (i64FromBe bytes + pgEpochUnixMicros)
      · rw [uncheckedI64, if_pos hfits]
        refine iff_of_true ⟨nofun, fun v hv => ?_⟩ fun _ => hfits
        cases hv
        exact rfl
      · rw [uncheckedI64, if_neg hfits]
        exact iff_of_false (fun h => h.1 rfl) fun h => hfits (h hlen)
    · rw [fixedWidthBytes_refused hlen]
      exact iff_of_true ⟨nofun, fun v hv => by cases hv⟩ fun h => absurd h hlen
  case date =>
    rw [DecodesFaithfully, decodeBinary, CountsFrom1970]
    by_cases hlen : bytes.length = 4
    · rw [fixedWidthBytes_ok hlen, Except.bind]
      by_cases hfits : FitsI32 (i32FromBe bytes + pgEpochUnixDays)
      · rw [uncheckedI32, if_pos hfits]
        refine iff_of_true ⟨nofun, fun v hv => ?_⟩ fun _ => hfits
        cases hv
        exact rfl
      · rw [uncheckedI32, if_neg hfits]
        exact iff_of_false (fun h => h.1 rfl) fun h => hfits (h hlen)
    · rw [fixedWidthBytes_refused hlen]
      exact iff_of_true ⟨nofun, fun v hv => by cases hv⟩ fun h => absurd h hlen
  case text =>
    rw [DecodesFaithfully, decodeBinary]
    refine iff_of_true ?_ trivial
    split_ifs
    · exact ⟨nofun, fun v hv => by cases hv; exact trivial⟩
    · exact ⟨nofun, fun v hv => by cases hv⟩
  case bytea => exact iff_of_true ⟨nofun, fun v hv => by cases hv; exact trivial⟩ trivial
  all_goals
    rw [DecodesFaithfully, decodeBinary, fixedWidthBytes]
    refine iff_of_true ?_ trivial
    split_ifs
    · exact ⟨nofun, fun v hv => by cases hv; exact trivial⟩
    · exact ⟨nofun, fun v hv => by cases hv⟩

/-! ### The two codecs of ranges -/

section

variable {α β : Type}

/-- The two codecs give the same, or both refuse. -/
def Agree (x : Except BinaryFault α) (y : Except PeriodWireError α) : Prop :=
  (∃ a, x = .ok a ∧ y = .ok a) ∨ (∃ e, x = .error (.refused e)) ∧ ∃ e, y = .error e

theorem not_agree_overflow (y : Except PeriodWireError α) : ¬Agree (.error .overflow) y := by
  rintro (⟨a, ha, -⟩ | ⟨⟨e, he⟩, -⟩)
  · cases ha
  · cases he

/-- They agree as long as nothing overflows. -/
theorem Agree.bind {x : Except BinaryFault α} {y : Except PeriodWireError α}
    {f : α → Except BinaryFault β} {g : α → Except PeriodWireError β}
    (h : x = .error .overflow ∨ Agree x y)
    (hf : ∀ a, f a = .error .overflow ∨ Agree (f a) (g a)) :
    x.bind f = .error .overflow ∨ Agree (x.bind f) (y.bind g) := by
  rcases h with rfl | ⟨a, rfl, rfl⟩ | ⟨⟨e, rfl⟩, e', rfl⟩
  · exact .inl rfl
  · exact hf a
  · exact .inr (.inr ⟨⟨e, rfl⟩, e', rfl⟩)

end

theorem agree_bound (rest : Bytes) :
    takeBound rest = .error .overflow ∨ Agree (takeBound rest) (popTimestamp rest) := by
  cases boundRead rest with
  | refused hnone hwire hperiod => exact .inr (.inr ⟨hwire, hperiod⟩)
  | read z tail hbound hfits hwire hperiod => exact .inr (.inl ⟨_, hwire, hperiod⟩)
  | overflow z tail hbound hnot hwire hperiod => exact .inl hwire

theorem agree_finish (start stop : ℤ) (rest : Bytes) :
    Agree (finishTsrange start stop rest) (finishPeriod start stop rest) := by
  rw [finishTsrange, finishPeriod]
  split_ifs
  · exact .inr ⟨⟨_, rfl⟩, _, rfl⟩
  · exact .inr ⟨⟨_, rfl⟩, _, rfl⟩
  · exact .inl ⟨_, rfl, rfl⟩

/-- The range is not empty and has an inclusive lower bound. -/
def HasLower (flags : Fin 256) : Prop :=
  flags &&& rangeEmpty = 0 ∧ flags &&& rangeLbInf = 0 ∧ flags &&& rangeLbInc ≠ 0

theorem fromPgBinary_refused {flags : Fin 256} (h : ¬HasLower flags) (rest : Bytes) :
    ∃ e, fromPgBinary (flags :: rest) = .error e := by
  rw [fromPgBinary]
  by_cases hempty : flags &&& rangeEmpty ≠ 0
  · exact ⟨_, if_pos hempty⟩
  · rw [if_neg hempty]
    by_cases hlower : flags &&& rangeLbInf ≠ 0 ∨ flags &&& rangeLbInc = 0
    · exact ⟨_, if_pos hlower⟩
    · obtain ⟨hinf, hinc⟩ := not_or.1 hlower
      exact absurd ⟨not_not.1 hempty, not_not.1 hinf, hinc⟩ h

theorem fromPgBinary_of_hasLower {flags : Fin 256} (h : HasLower flags) (rest : Bytes) :
    fromPgBinary (flags :: rest) = (popTimestamp rest).bind fun lower =>
      if flags &&& rangeUbInf ≠ 0 then finishPeriod lower.1 i64Max lower.2
      else if flags &&& rangeUbInc ≠ 0 then .error .unsupportedUpperBound
      else (popTimestamp lower.2).bind fun upper => finishPeriod lower.1 upper.1 upper.2 := by
  obtain ⟨hempty, hinf, hinc⟩ := h
  rw [fromPgBinary, if_neg (by simp [hempty]), if_neg (by simp [hinf, hinc])]

theorem agree_of_readsBounds {flags : Fin 256} (h : ReadsBounds flags) (rest : Bytes) :
    decodeTsrange (flags :: rest) = .error .overflow ∨
      Agree (decodeTsrange (flags :: rest)) (fromPgBinary (flags :: rest)) := by
  have hperiod : fromPgBinary (flags :: rest) = (popTimestamp rest).bind fun lower =>
      if flags &&& rangeUbInf ≠ 0 then finishPeriod lower.1 i64Max lower.2
      else (popTimestamp lower.2).bind fun upper => finishPeriod lower.1 upper.1 upper.2 := by
    obtain ⟨hempty, hinf, hinc, hub⟩ := h
    rw [fromPgBinary_of_hasLower ⟨hempty, hinf, hinc⟩]
    simp only [hub, ne_eq, not_true_eq_false, if_false]
  rw [decodeTsrange_of_readsBounds h, hperiod]
  refine Agree.bind (agree_bound rest) fun lower => ?_
  by_cases hinf : flags &&& rangeUbInf ≠ 0
  · rw [if_pos hinf, if_pos hinf]
    exact .inr (agree_finish _ _ _)
  · rw [if_neg hinf, if_neg hinf]
    exact Agree.bind (agree_bound lower.2) fun upper => .inr (agree_finish _ _ _)

/-- A range without an upper bound that claims to include it, and is well formed otherwise. -/
def IncludesInfinity (bytes : Bytes) : Prop :=
  ∃ flags rest z, bytes = flags :: rest ∧ HasLower flags ∧ flags &&& rangeUbInc ≠ 0 ∧
    flags &&& rangeUbInf ≠ 0 ∧ boundOf rest = some (z, []) ∧ FitsI64 (z + pgEpochUnixMicros) ∧
    z + pgEpochUnixMicros < i64Max

/-- The codec of periods accepts such a range, and the one of the wire layer refuses it. -/
theorem fromPgBinary_ok_iff {flags : Fin 256} {rest : Bytes} (hub : flags &&& rangeUbInc ≠ 0) :
    (∃ p, fromPgBinary (flags :: rest) = .ok p) ↔ IncludesInfinity (flags :: rest) := by
  constructor
  · rintro ⟨p, hp⟩
    by_cases hlower : HasLower flags
    · rw [fromPgBinary_of_hasLower hlower] at hp
      cases boundRead rest with
      | refused hnone hwire hperiod =>
        obtain ⟨e, he⟩ := hperiod
        rw [he] at hp
        cases hp
      | overflow z tail hbound hnot hwire hperiod =>
        obtain ⟨e, he⟩ := hperiod
        rw [he] at hp
        cases hp
      | read z tail hbound hfits hwire hperiod =>
        rw [hperiod, Except.bind] at hp
        by_cases hinf : flags &&& rangeUbInf ≠ 0
        · rw [if_pos hinf, finishPeriod] at hp
          by_cases htail : tail ≠ []
          · rw [if_pos htail] at hp
            cases hp
          · rw [if_neg htail] at hp
            by_cases hle : z + pgEpochUnixMicros ≥ i64Max
            · rw [if_pos hle] at hp
              cases hp
            · rw [not_not.1 htail] at hbound
              exact ⟨flags, rest, z, rfl, hlower, hub, hinf, hbound, hfits, not_le.1 hle⟩
        · rw [if_neg hinf, if_pos hub] at hp
          cases hp
    · obtain ⟨e, he⟩ := fromPgBinary_refused hlower rest
      cases he.symm.trans hp
  · rintro ⟨flags', rest', z, heq, hlower, -, hinf, hbound, hfits, hlt⟩
    cases heq
    cases boundRead rest with
    | refused hnone => cases hbound.symm.trans hnone
    | overflow z' tail hbound' hnot =>
      cases hbound.symm.trans hbound'
      exact absurd hfits hnot
    | read z' tail hbound' hfits' hwire hperiod =>
      cases hbound.symm.trans hbound'
      rw [fromPgBinary_of_hasLower hlower, hperiod, Except.bind, if_pos hinf, finishPeriod,
        if_neg (by simp), if_neg (not_le.2 hlt)]
      exact ⟨_, rfl⟩

/-- **Where the two codecs agree on what a range is.** -/
theorem decodeTsrange_agree (bytes : Bytes) :
    Agree (decodeTsrange bytes) (fromPgBinary bytes) ↔
      CountsFrom1970 .period bytes ∧ ¬IncludesInfinity bytes := by
  cases bytes with
  | nil =>
    refine iff_of_true (.inr ⟨⟨_, rfl⟩, _, rfl⟩) ⟨trivial, ?_⟩
    rintro ⟨flags, rest, z, heq, -⟩
    cases heq
  | cons flags rest =>
    by_cases hreads : ReadsBounds flags
    · have hno : ¬IncludesInfinity (flags :: rest) := by
        rintro ⟨flags', rest', z, heq, -, hub, -⟩
        cases heq
        exact hub hreads.2.2.2
      rw [and_iff_left hno]
      rcases decodeTsrange_cases hreads rest with ⟨⟨e, he⟩, hall⟩ | ⟨hover, z, hz, hnot⟩ |
        ⟨start, stop, hok, hall, -⟩
      · refine iff_of_true ((agree_of_readsBounds hreads rest).resolve_left ?_) fun _ => hall
        rw [he]
        exact nofun
      · rw [hover]
        exact iff_of_false (not_agree_overflow _) fun h => hnot (h hreads z hz)
      · refine iff_of_true ((agree_of_readsBounds hreads rest).resolve_left ?_) fun _ => hall
        rw [hok]
        exact nofun
    · obtain ⟨e, he⟩ := decodeTsrange_refused hreads rest
      have hcounts : CountsFrom1970 .period (flags :: rest) := fun h => absurd h hreads
      rw [he, and_iff_right hcounts]
      -- the codec of periods has to refuse too
      have hagree : Agree (.error (.refused e)) (fromPgBinary (flags :: rest)) ↔
          ¬∃ p, fromPgBinary (flags :: rest) = .ok p := by
        cases hp : fromPgBinary (flags :: rest) with
        | error e' => exact iff_of_true (.inr ⟨⟨e, rfl⟩, e', rfl⟩) (by rintro ⟨p, ⟨⟩⟩)
        | ok p =>
          refine iff_of_false ?_ (not_not.2 ⟨p, rfl⟩)
          rintro (⟨a, ha, -⟩ | ⟨-, e', he'⟩)
          · cases ha
          · cases he'
      rw [hagree]
      by_cases hub : flags &&& rangeUbInc ≠ 0
      · rw [fromPgBinary_ok_iff hub]
      · refine iff_of_true ?_ ?_
        · rintro ⟨p, hp⟩
          have hlower : ¬HasLower flags := fun ⟨hempty, hinf, hinc⟩ =>
            hreads ⟨hempty, hinf, hinc, not_not.1 hub⟩
          obtain ⟨e', he'⟩ := fromPgBinary_refused hlower rest
          cases he'.symm.trans hp
        · rintro ⟨flags', rest', z, heq, -, hub', -⟩
          cases heq
          exact hub hub'

/-- **Where the two codecs agree on how a range is written.** -/
theorem encodeTsrange_agree {start stop : ℤ} (hstop : FitsI64 stop) (hlt : start < stop) :
    Agree (encodeTsrange start stop) (toPgBinary start stop) ↔
      FitsI64 (start - pgEpochUnixMicros) := by
  by_cases h : FitsI64 (start - pgEpochUnixMicros)
  · refine iff_of_true (.inl ⟨_, encodeTsrange_of_fits hstop hlt h, ?_⟩) h
    rw [toPgBinary, pushTimestamp, if_pos h, pushTimestamp, if_pos (fits_stop hstop hlt h)]
    split_ifs
    · simp [Except.bind]
      rfl
    · simp [Except.bind]
      rfl
  · refine iff_of_false ?_ h
    rw [encodeTsrange_overflow h]
    exact not_agree_overflow _

/-- **When the binary codec is faithful**: instants can be re-based, and the two codecs of ranges
differ only where one leaves its type, or a range claims to include an upper bound that it has
not. -/
theorem binaryFormat_iff (ty : LogicalType) (bytes : Bytes) :
    (∀ v : ScalarValue, v.WellFormed → (EncodesFaithfully v ↔ CountsFrom2000 v)) ∧
    (DecodesFaithfully ty bytes ↔ CountsFrom1970 ty bytes) ∧
    (∀ start stop, FitsI64 start → FitsI64 stop → start < stop →
      (Agree (encodeTsrange start stop) (toPgBinary start stop) ↔
        FitsI64 (start - pgEpochUnixMicros))) ∧
    (Agree (decodeTsrange bytes) (fromPgBinary bytes) ↔
      CountsFrom1970 .period bytes ∧ ¬IncludesInfinity bytes) :=
  ⟨fun _ h => encodeBinary_iff h, decodeBinary_iff ty bytes,
    fun _ _ _ hstop hlt => encodeTsrange_agree hstop hlt, decodeTsrange_agree bytes⟩

theorem binaryFormat_iff_sample :
    EncodesFaithfully (.timestamp 0) ∧ DecodesFaithfully .date [0, 0, 0, 0] ∧
      Agree (encodeTsrange 0 1) (toPgBinary 0 1) := by
  have hzero : (ScalarValue.timestamp 0).WellFormed := by
    constructor
    case fits => exact (by decide : FitsI64 0)
    case utf8 => exact fun s hs => by cases hs
    case ordered => exact fun start stop hp => by cases hp
    case sized => exact (by decide : (i64ToLeBytes 0).length < 2 ^ 64)
  obtain ⟨hencode, hdecode, hranges, -⟩ := binaryFormat_iff .date [0, 0, 0, 0]
  exact ⟨(hencode _ hzero).2 (by decide : FitsI64 (0 - pgEpochUnixMicros)),
    hdecode.2 fun _ => by decide, (hranges 0 1 (by decide) (by decide) (by decide)).2 (by decide)⟩

/-- The earliest instant, the latest that bytes can name, a period since the earliest instant, and a
range that claims to include infinity. -/
theorem binaryFormat_unfaithful :
    ¬EncodesFaithfully (.timestamp i64Min) ∧
    ¬DecodesFaithfully .timestamp [0x7f, 0xff, 0xff, 0xff, 0xff, 0xff, 0xff, 0xff] ∧
    ¬Agree (encodeTsrange i64Min 0) (toPgBinary i64Min 0) ∧
    ¬Agree (decodeTsrange [0x16, 0, 0, 0, 8, 0, 0, 0, 0, 0, 0, 0, 0])
      (fromPgBinary [0x16, 0, 0, 0, 8, 0, 0, 0, 0, 0, 0, 0, 0]) := by
  refine ⟨not_encodesFaithfully (by decide), fun h => h.1 (by decide), ?_, ?_⟩
  · rw [encodeTsrange_overflow (by decide)]
    exact not_agree_overflow _
  · rintro (⟨p, hp, -⟩ | ⟨-, e, he⟩)
    · have hwire : decodeTsrange [0x16, 0, 0, 0, 8, 0, 0, 0, 0, 0, 0, 0, 0] =
          .error (.refused (.badRange "inclusive upper bound")) := by decide
      cases hwire.symm.trans hp
    · have hperiod : fromPgBinary [0x16, 0, 0, 0, 8, 0, 0, 0, 0, 0, 0, 0, 0] =
          .ok (pgEpochUnixMicros, i64Max) := by decide
      cases hperiod.symm.trans he

end Wire

end SteleDb
