import SteleDb.Exec.Datetime

/-!
# Fields of text

A field of a bulk load is the text of a value, without the quotes of a literal, and is read by the
type of its column.  Numbers, booleans and civil times are trimmed; the other types take their text
as it stands.

* `fits_of_foldTextField` : what is read is in the range of its type.
-/

namespace SteleDb

/-- Why a field is not a value of a type. -/
inductive FoldError where
  | badLiteral (literal : Bytes) (reason : Option String)
  | unsupportedType (ty : LogicalType)
  deriving DecidableEq, Repr

/-- How reading a field ends without a value. -/
inductive FoldStop where
  /-- A slice inside a character. -/
  | panic
  | refused (e : FoldError)
  deriving DecidableEq, Repr

/-- `str::parse` of an integer: digits, with a sign or without. -/
def parseInteger (text : Bytes) : Option ℤ :=
  match text with
  | 45 :: digits => if allDigits digits then some (-digitsValue digits) else none
  | 43 :: digits => if allDigits digits then some (digitsValue digits) else none
  | digits => if allDigits digits then some (digitsValue digits) else none

/-- The decimal text of an integer. -/
def intText (v : ℤ) : Bytes := if v < 0 then 45 :: decimal v.natAbs else decimal v.natAbs

theorem parseInteger_intText (v : ℤ) : parseInteger (intText v) = some v := by
  rw [intText]
  by_cases h : v < 0
  · rw [if_pos h, parseInteger]
    simp only [allDigits_decimal, if_true, digitsValue_decimal]
    rw [Int.ofNat_natAbs_of_nonpos h.le, neg_neg]
  · have hvalue : parseInteger (decimal v.natAbs) = if allDigits (decimal v.natAbs) then
        some (digitsValue (decimal v.natAbs) : ℤ) else none := by
      -- the first digit is not a sign
      obtain ⟨b, digits, hb⟩ := List.exists_cons_of_ne_nil (decimal_ne_nil v.natAbs)
      have hdigit := mem_decimal (n := v.natAbs) (b := b) (by rw [hb]; exact List.mem_cons_self)
      rw [hb, parseInteger]
      · rintro _ heq
        cases heq
        revert hdigit
        decide
      · rintro _ heq
        cases heq
        revert hdigit
        decide
    rw [if_neg h, hvalue, allDigits_decimal, if_pos rfl, digitsValue_decimal,
      Int.natAbs_of_nonneg (not_lt.1 h)]

/-- The spellings of a boolean, in lower case. -/
def parseCopyBool (text : Bytes) : Option Bool :=
  let lower := toAsciiLowercase text
  if lower ∈ [ascii "t", ascii "true", ascii "yes", ascii "y", ascii "on", ascii "1"] then some true
  else if lower ∈ [ascii "f", ascii "false", ascii "no", ascii "n", ascii "off", ascii "0"] then
    some false
  else none

/-- The value of a hexadecimal digit. -/
def hexVal (c : Fin 256) : Option ℕ :=
  if 48 ≤ c ∧ c ≤ 57 then some (c.val - 48)
  else if 97 ≤ c ∧ c ≤ 102 then some (c.val - 87)
  else if 65 ≤ c ∧ c ≤ 70 then some (c.val - 55)
  else none

/-- Two digits a byte, the high one first. -/
def bytesOfNibbles : List ℕ → Bytes
  | hi :: lo :: rest => Fin.ofNat 256 (hi * 16 + lo) :: bytesOfNibbles rest
  | _ => []

/-- A UUID: 32 digits, and hyphens anywhere. -/
def parseUuid (text : Bytes) : Option Bytes := do
  let nibbles ← (text.filter (· ≠ 45)).mapM hexVal
  if nibbles.length = 32 then some (bytesOfNibbles nibbles) else none

/-- Bytes: `\x` and two digits each. -/
def parseBytea (text : Bytes) : Option Bytes := do
  let hex ← match text with
    | 92 :: 120 :: hex => some hex
    | 92 :: 88 :: hex => some hex
    | _ => none
  if hex.length % 2 ≠ 0 then none
  else do
    let nibbles ← hex.mapM hexVal
    return bytesOfNibbles nibbles

/-- A civil time. -/
def foldCivilText (text : Bytes) (wrap : ℤ → ScalarValue)
    (parse : Bytes → Except Datetime.Stop ℤ) : Except FoldStop ScalarValue :=
  match parse (trim text) with
  | .ok v => .ok (wrap v)
  | .error .panic => .error .panic
  | .error (.refused e) => .error (.refused (.badLiteral e.literal (some e.reason)))

/-- The value of a field. -/
def foldTextField (text : Bytes) (ty : LogicalType) : Except FoldStop ScalarValue :=
  let bad := fun reason => Except.error (.refused (.badLiteral text reason))
  match ty with
  | .int4 => match parseInteger (trim text) with
    | some v => if FitsI32 v then .ok (.int4 v) else bad none
    | none => bad none
  | .int8 => match parseInteger (trim text) with
    | some v => if FitsI64 v then .ok (.int8 v) else bad none
    | none => bad none
  | .text => .ok (.text text)
  | .bool => match parseCopyBool (trim text) with
    | some b => .ok (.bool b)
    | none => bad (some "expected a boolean: t/f, true/false, yes/no, on/off, 1/0")
  | .uuid => match parseUuid text with
    | some raw => .ok (.uuid raw)
    | none => bad (some "expected a UUID: 32 hex digits, optionally hyphenated")
  | .bytea => match parseBytea text with
    | some raw => .ok (.bytea raw)
    | none => bad (some "expected bytea hex: `\\x` then an even number of hex digits")
  | .timestampTz => foldCivilText text .timestampTz Datetime.parseTimestamptz
  | .timestamp => foldCivilText text .timestamp Datetime.parseTimestamp
  | .date => foldCivilText text .date Datetime.parseDate
  | .period => .error (.refused (.unsupportedType .period))
  | .float8 => .error (.refused (.unsupportedType .float8))

theorem foldTextField_date (text : Bytes) :
    foldTextField text .date = foldCivilText text .date Datetime.parseDate := rfl

theorem foldTextField_timestamp (text : Bytes) :
    foldTextField text .timestamp = foldCivilText text .timestamp Datetime.parseTimestamp := rfl

theorem foldTextField_timestampTz (text : Bytes) :
    foldTextField text .timestampTz = foldCivilText text .timestampTz Datetime.parseTimestamptz :=
  rfl

theorem length_bytesOfNibbles {nibbles : List ℕ} {n : ℕ} (h : nibbles.length = 2 * n) :
    (bytesOfNibbles nibbles).length = n := by
  induction n generalizing nibbles with
  | zero =>
    rw [List.eq_nil_of_length_eq_zero h]
    rfl
  | succ n ih =>
    obtain ⟨hi, lo, rest, rfl⟩ : ∃ hi lo rest, nibbles = hi :: lo :: rest := by
      match nibbles, h with
      | hi :: lo :: rest, _ => exact ⟨hi, lo, rest, rfl⟩
    rw [bytesOfNibbles, List.length_cons, ih (by simp at h; omega)]

theorem length_parseUuid {text raw : Bytes} (h : parseUuid text = some raw) : raw.length = 16 := by
  obtain ⟨nibbles, -, h⟩ := Option.bind_eq_some_iff.1 h
  split_ifs at h with hlen
  cases h
  exact length_bytesOfNibbles hlen

theorem foldCivilText_ok {text : Bytes} {wrap : ℤ → ScalarValue}
    {parse : Bytes → Except Datetime.Stop ℤ} {v : ScalarValue} :
    foldCivilText text wrap parse = .ok v ↔ ∃ t, parse (trim text) = .ok t ∧ wrap t = v := by
  rw [foldCivilText]
  constructor
  · intro h
    split at h
    next t ht => exact ⟨t, ht, Except.ok.inj h⟩
    next => cases h
    next => cases h
  · rintro ⟨t, ht, rfl⟩
    rw [ht]

/-- What is read is a value of the type, and in its range. -/
theorem fits_of_foldTextField {text : Bytes} {ty : LogicalType} {v : ScalarValue}
    (hvalid : validUtf8 text) (h : foldTextField text ty = .ok v) :
    v.logicalType = ty ∧ v.Fits := by
  have htrim := validUtf8_trim hvalid
  cases ty with
  | int4 | int8 =>
    simp only [foldTextField] at h
    split at h
    · split_ifs at h with hfits
      cases h
      exact ⟨rfl, hfits⟩
    · cases h
  | text =>
    cases h
    exact ⟨rfl, trivial⟩
  | bool | bytea =>
    simp only [foldTextField] at h
    split at h
    · cases h
      exact ⟨rfl, trivial⟩
    · cases h
  | uuid =>
    simp only [foldTextField] at h
    split at h
    next raw hraw =>
      cases h
      exact ⟨rfl, length_parseUuid hraw⟩
    next => cases h
  | timestampTz =>
    obtain ⟨t, ht, rfl⟩ := foldCivilText_ok.1 h
    obtain ⟨localUs, -, -, hfits⟩ := Datetime.parseTimestamptz_ok htrim ht
    exact ⟨rfl, hfits⟩
  | timestamp =>
    obtain ⟨t, ht, rfl⟩ := foldCivilText_ok.1 h
    exact ⟨rfl, ((Datetime.parseTimestamp_ok_iff htrim).1 ht).2⟩
  | date =>
    obtain ⟨t, ht, rfl⟩ := foldCivilText_ok.1 h
    obtain ⟨year, month, day, -, -, hfits⟩ := Datetime.parseDate_ok_iff.1 ht
    exact ⟨rfl, hfits⟩
  | period | float8 => cases h

end SteleDb
