import SteleDb.Lib.Base64
import SteleDb.Lib.Calendar
import SteleDb.Lib.Decimal
import SteleDb.Lib.ExceptMap
import SteleDb.Lib.Text
import SteleDb.Exec.ScalarOrder

/-!
# Literals of dates and instants

A `date` is a number of days and a `timestamp` a number of microseconds since 1970-01-01 UTC.  Their
literals are texts: `YYYY-MM-DD`, then a time of day and, for `timestamptz`, an offset from UTC that
is subtracted.

Slices of a text are checked for character boundaries as the language checks them, and stop the
process if they are not.

* `daysFromCivil_eq` : the closed form counts the days of the calendar;
* `parseDate_ok_iff`, `parseTimestamp_ok_iff` : what is accepted, and as which value;
* `readsCivilTime_iff` : all literals are read exactly, but for two kinds of offsets.
-/

namespace SteleDb

namespace Datetime

/-- Microseconds in a second. -/
def microsPerSec : ℤ := 1000000

/-- Microseconds in a day. -/
def microsPerDay : ℤ := 86400 * microsPerSec

/-- Seconds in an hour. -/
def secsPerHour : ℤ := 3600

/-- Why a literal is refused. -/
structure ParseError where
  /-- The type as PostgreSQL spells it. -/
  typeName : String
  /-- The literal. -/
  literal : Bytes
  /-- What is wrong. -/
  reason : String
  deriving DecidableEq, Repr

/-- How reading a literal ends without a value. -/
inductive Stop where
  /-- A slice inside a character. -/
  | panic
  | refused (e : ParseError)
  deriving DecidableEq, Repr

/-! ### Parts of a literal -/

/-- `YYYY-MM-DD`; the numbers fit an `i64` and two `u32`. -/
def parseDateFields (s : Bytes) : Option (ℕ × ℕ × ℕ) :=
  match s.splitOn 45 with
  | [y, m, d] =>
    if y.length < 4 ∨ !allDigits y ∨ !allDigits m ∨ !allDigits d then none
    else if digitsValue y < 2 ^ 63 ∧ digitsValue m < 2 ^ 32 ∧ digitsValue d < 2 ^ 32 then
      some (digitsValue y, digitsValue m, digitsValue d)
    else none
  | _ => none

/-- Hour, minute, second and the microseconds of the fraction. -/
def clockFields (hh mm : Bytes) (ss frac : Option Bytes) : Option (ℕ × ℕ × ℕ × ℕ) :=
  if hh.length ≠ 2 ∨ mm.length ≠ 2 ∨ !allDigits hh ∨ !allDigits mm then none
  else do
    let ssVal ← ss.elim (some 0) fun ss =>
      if ss.length = 2 ∧ allDigits ss then some (digitsValue ss) else none
    let fracUs ← frac.elim (some 0) fun f =>
      if f ≠ [] ∧ allDigits f then some (digitsValue (padRight 6 (f.take 6))) else none
    return (digitsValue hh, digitsValue mm, ssVal, fracUs)

/-- `HH:MM[:SS]`, and the digits of a fraction. -/
def clockParts (clock : Bytes) (frac : Option Bytes) : Option (ℕ × ℕ × ℕ × ℕ) :=
  match clock.splitOn 58 with
  | [hh, mm] => clockFields hh mm none frac
  | [hh, mm, ss] => clockFields hh mm (some ss) frac
  | _ => none

/-- `HH:MM[:SS][.ffffff]`. -/
def parseClock (s : Bytes) : Option (ℕ × ℕ × ℕ × ℕ) :=
  match s.findIdx? (· = 46) with
  | some i => clockParts (s.take i) (some (s.drop (i + 1)))
  | none => clockParts s none

/-- Hours, minutes and seconds of an offset. -/
def zoneParts (rest : Bytes) : Except Stop (Option (Bytes × Bytes × Bytes)) :=
  if 58 ∈ rest then
    match rest.splitOn 58 with
    | [hh] => .ok (some (hh, [48, 48], [48, 48]))
    | [hh, mm] => .ok (some (hh, mm, [48, 48]))
    | [hh, mm, ss] => .ok (some (hh, mm, ss))
    | _ => .ok none
  else if rest.length = 2 then .ok (some (rest, [48, 48], [48, 48]))
  else if rest.length = 4 then
    if isCharBoundary rest 2 then .ok (some (rest.take 2, rest.drop 2, [48, 48]))
    else .error .panic
  else .ok none

/-- The seconds of an offset. -/
def zoneSeconds (sign : ℤ) (parts : Bytes × Bytes × Bytes) : Option ℤ :=
  let (hh, mm, ss) := parts
  if hh.length ≠ 2 ∨ mm.length ≠ 2 ∨ ss.length ≠ 2 then none
  else if !allDigits hh ∨ !allDigits mm ∨ !allDigits ss then none
  else if 23 < digitsValue hh ∨ 59 < digitsValue mm ∨ 59 < digitsValue ss then none
  else some (sign * (digitsValue hh * secsPerHour + digitsValue mm * 60 + digitsValue ss))

/-- An offset in seconds east of UTC: nothing, `Z`, or a sign with hours, minutes and seconds. -/
def parseZone (s : Bytes) : Except Stop (Option ℤ) :=
  if s = [] ∨ s = [122] ∨ s = [90] then .ok (some 0)
  else if !isCharBoundary s 1 then .error .panic
  else if s.head? = some 43 then (zoneParts (s.drop 1)).map fun p => p.bind (zoneSeconds 1)
  else if s.head? = some 45 then (zoneParts (s.drop 1)).map fun p => p.bind (zoneSeconds (-1))
  else .ok none

/-- Days since 1970-01-01, by eras of 400 years; the intermediate numbers fit an `i128`. -/
def daysFromCivil (year month day : ℕ) : Option ℤ :=
  let y : ℤ := (year : ℤ) - if month ≤ 2 then 1 else 0
  let era := (if 0 ≤ y then y else y - 399).tdiv 400
  let yoe := y - era * 400
  let doy := (153 * (if 2 < month then (month : ℤ) - 3 else (month : ℤ) + 9) + 2).tdiv 5 + day - 1
  let doe := yoe * 365 + yoe.tdiv 4 - yoe.tdiv 100 + doy
  let days := era * 146097 + doe - 719468
  if FitsI64 days then some days else none

-- its callers ask for its result only: on variables there is nothing to compute
attribute [irreducible] daysFromCivil

/-! ### Literals -/

/-- A `date` literal. -/
def parseDate (input : Bytes) : Except Stop ℤ :=
  let err := fun reason => Except.error (.refused ⟨"date", input, reason⟩)
  match parseDateFields (trim input) with
  | none => err "malformed date"
  | some (year, month, day) =>
    if ¬(1 ≤ month ∧ month ≤ 12) then err "month out of range"
    else if ¬(1 ≤ day ∧ day ≤ daysInMonth year month) then err "day out of range for month"
    else match daysFromCivil year month day with
      | none => err "date out of range"
      | some days => if FitsI32 days then .ok days else err "date out of range"

/-- The instant of a day, a time of day and an offset. -/
def instantOf (typeName : String) (input : Bytes) (year month day hh mm ss fracUs : ℕ)
    (offsetSecs : ℤ) : Except Stop ℤ :=
  let err := Except.error (.refused ⟨typeName, input, "instant out of range"⟩)
  match daysFromCivil year month day with
  | none => err
  | some days =>
    let todUs := (hh * secsPerHour + mm * 60 + ss) * microsPerSec + fracUs
    if ¬FitsI64 (days * microsPerDay) then err
    else
      let localUs := days * microsPerDay + todUs
      if ¬FitsI64 localUs then err
      else if ¬FitsI64 (localUs - offsetSecs * microsPerSec) then err
      else .ok (localUs - offsetSecs * microsPerSec)

/-- A literal that is cut into its date, its time of day and its offset. -/
def parseParts (typeName : String) (input date clock zone : Bytes) : Except Stop ℤ :=
  let err := fun reason => Except.error (.refused ⟨typeName, input, reason⟩)
  match parseDateFields date with
  | none => err "malformed date"
  | some (year, month, day) =>
    if ¬(1 ≤ month ∧ month ≤ 12) then err "month out of range"
    else if ¬(1 ≤ day ∧ day ≤ daysInMonth year month) then err "day out of range for month"
    else match parseClock clock with
      | none => err "malformed time"
      | some (hh, mm, ss, fracUs) =>
        if 23 < hh ∨ 59 < mm ∨ 59 < ss then err "clock field out of range"
        else (parseZone zone).bind fun offset =>
          match offset with
          | none => err "malformed time zone offset"
          | some offsetSecs => instantOf typeName input year month day hh mm ss fracUs offsetSecs

/-- A literal of an instant. -/
def parseInstant (input : Bytes) (typeName : String) (allowZone : Bool) : Except Stop ℤ :=
  let err := fun reason => Except.error (.refused ⟨typeName, input, reason⟩)
  let s := trim input
  match s.findIdx? (fun b => b = 32 ∨ b = 84 ∨ b = 116) with
  | none => err "expected a date and time separated by space or 'T'"
  | some sep =>
    let after := s.drop sep
    if !isCharBoundary after 1 then .error .panic
    else
      let rest := after.drop 1
      let (clock, zone) :=
        match rest.findIdx? (fun b => b = 43 ∨ b = 45 ∨ b = 90 ∨ b = 122) with
        | none => (rest, [])
        | some i => (rest.take i, rest.drop i)
      if !allowZone ∧ zone ≠ [] then
        err "a zone offset is not allowed on a zone-less timestamp — use TIMESTAMPTZ"
      else parseParts typeName input (s.take sep) clock zone

/-- A `timestamptz` literal. -/
def parseTimestamptz (input : Bytes) : Except Stop ℤ :=
  parseInstant input "timestamp with time zone" true

/-- A `timestamp` literal. -/
def parseTimestamp (input : Bytes) : Except Stop ℤ := parseInstant input "timestamp" false

/-! ### What literals name -/

/-- Days from 1970-01-01 to a day of the calendar. -/
def epochDay (year month day : ℕ) : ℤ := (dayNumber year month day : ℤ) - dayNumber 1970 1 1

theorem epochDay_eq (year month day : ℕ) :
    epochDay year month day = dayNumber year month day - 719528 := by
  have hepoch : (dayNumber 1970 1 1 : ℤ) = 719528 := by
    rw [era_days (by norm_num) (by norm_num) (by norm_num) rfl]
    norm_num
  rw [epochDay, hepoch]

-- the epoch's own count is not to be unfolded
attribute [irreducible] epochDay

/-- Two digits that name a number, at most `bound`. -/
structure Field (text : Bytes) (n bound : ℕ) : Prop where
  length : text.length = 2
  digits : allDigits text = true
  value : digitsValue text = n
  le : n ≤ bound

/-- `YYYY-MM-DD` for a day of the calendar, the year with four digits or more. -/
inductive DateText : Bytes → ℕ → ℕ → ℕ → Prop
  | mk {y m d : Bytes} (hy : allDigits y = true) (hlen : 4 ≤ y.length) (hm : allDigits m = true)
      (hd : allDigits d = true) (hday : IsDay (digitsValue y) (digitsValue m) (digitsValue d)) :
      DateText (y ++ 45 :: (m ++ 45 :: d)) (digitsValue y) (digitsValue m) (digitsValue d)

/-- Nothing, or a point and digits: microseconds, rounded down. -/
inductive FractionText : Bytes → ℕ → Prop
  | none : FractionText [] 0
  | point {f : Bytes} (h : allDigits f = true) :
      FractionText (46 :: f) (digitsValue f * 10 ^ 6 / 10 ^ f.length)

/-- `HH:MM` or `HH:MM:SS`, and a fraction: hour, minute, second and microseconds. -/
inductive ClockText : Bytes → ℕ → ℕ → ℕ → ℕ → Prop
  | minutes {hh mm f : Bytes} {h m us : ℕ} (hhh : Field hh h 23) (hmm : Field mm m 59)
      (hf : FractionText f us) : ClockText (hh ++ 58 :: mm ++ f) h m 0 us
  | seconds {hh mm ss f : Bytes} {h m s us : ℕ} (hhh : Field hh h 23) (hmm : Field mm m 59)
      (hss : Field ss s 59) (hf : FractionText f us) :
      ClockText (hh ++ 58 :: (mm ++ 58 :: ss) ++ f) h m s us

/-- `HH`, `HHMM`, `HH:MM` or `HH:MM:SS`: hours, minutes and seconds. -/
inductive OffsetText : Bytes → ℕ → ℕ → ℕ → Prop
  | hours {hh : Bytes} {h : ℕ} (hhh : Field hh h 23) : OffsetText hh h 0 0
  | compact {hh mm : Bytes} {h m : ℕ} (hhh : Field hh h 23) (hmm : Field mm m 59) :
      OffsetText (hh ++ mm) h m 0
  | minutes {hh mm : Bytes} {h m : ℕ} (hhh : Field hh h 23) (hmm : Field mm m 59) :
      OffsetText (hh ++ 58 :: mm) h m 0
  | seconds {hh mm ss : Bytes} {h m s : ℕ} (hhh : Field hh h 23) (hmm : Field mm m 59)
      (hss : Field ss s 59) : OffsetText (hh ++ 58 :: (mm ++ 58 :: ss)) h m s

/-- A sign. -/
inductive SignText : Fin 256 → ℤ → Prop
  | plus : SignText 43 1
  | minus : SignText 45 (-1)

/-- Nothing, `Z`, or a sign and an offset: seconds east of UTC. -/
inductive ZoneText : Bytes → ℤ → Prop
  | absent : ZoneText [] 0
  | utc {c : Fin 256} (hc : c = 90 ∨ c = 122) : ZoneText [c] 0
  | offset {c : Fin 256} {t : Bytes} {sign : ℤ} {h m s : ℕ} (hc : SignText c sign)
      (ht : OffsetText t h m s) : ZoneText (c :: t) (sign * (h * 3600 + m * 60 + s))

/-- Microseconds from 1970-01-01 00:00 to a time of a day. -/
def localMicros (year month day h m s us : ℕ) : ℤ :=
  epochDay year month day * (24 * 3600 * 10 ^ 6) + ((h * 3600 + m * 60 + s) * 10 ^ 6 + us)

/-- A date, a space or `T`, and a time of day: the year and the microseconds. -/
inductive LocalText : Bytes → ℕ → ℤ → Prop
  | mk {date clock : Bytes} {sep : Fin 256} {year month day h m s us : ℕ}
      (hdate : DateText date year month day) (hsep : sep = 32 ∨ sep = 84 ∨ sep = 116)
      (hclock : ClockText clock h m s us) :
      LocalText (date ++ sep :: clock) year (localMicros year month day h m s us)

/-- A local time and an offset: the local time, and the instant. -/
inductive InstantText : Bytes → ℤ → ℤ → Prop
  | mk {t zone : Bytes} {year : ℕ} {localUs offset : ℤ} (ht : LocalText t year localUs)
      (hzone : ZoneText zone offset) :
      InstantText (t ++ zone) localUs (localUs - offset * 10 ^ 6)

/-- A local time, a sign, and four bytes without a colon, the middle of which is inside a
character. -/
inductive StraddledText : Bytes → Prop
  | mk {t rest : Bytes} {c : Fin 256} {year : ℕ} {localUs sign : ℤ} (ht : LocalText t year localUs)
      (hyear : year < 2 ^ 63) (hc : SignText c sign) (hcolon : 58 ∉ rest) (hlen : rest.length = 4)
      (hmid : isCharBoundary rest 2 = false) : StraddledText (t ++ c :: rest)

/-- A parser of texts reads what a text names if it fits, refuses all other texts and always
ends. -/
structure Reads (parse : Bytes → Except Stop ℤ) (names : ℤ → Prop) (text : Bytes) : Prop where
  no_panic : parse text ≠ .error .panic
  ok_iff : ∀ v, parse text = .ok v ↔ names v
  refused_iff : (∃ e, parse text = .error (.refused e)) ↔ ¬∃ v, names v

theorem Reads.of {parse : Bytes → Except Stop ℤ} {names : ℤ → Prop} {text : Bytes}
    (hpanic : parse text ≠ .error .panic) (hok : ∀ v, parse text = .ok v ↔ names v) :
    Reads parse names text := by
  refine ⟨hpanic, hok, ?_⟩
  cases hout : parse text with
  | ok v =>
    have hnames := (hok v).1 hout
    simp only [reduceCtorEq, exists_false, false_iff, not_not]
    exact ⟨v, hnames⟩
  | error stop =>
    cases stop with
    | panic => exact absurd hout hpanic
    | refused e =>
      refine ⟨fun _ ⟨v, hv⟩ => ?_, fun _ => ⟨e, rfl⟩⟩
      have hv' := (hok v).2 hv
      rw [hout] at hv'
      cases hv'

/-! ### Dates -/

theorem not_mem_of_allDigits {text : Bytes} {b : Fin 256} (h : allDigits text = true)
    (hb : b < 48 ∨ 57 < b) : b ∉ text := by
  intro hmem
  have hrange := (allDigits_iff.1 h).2 b hmem
  omega

theorem parseDateFields_of_text {s : Bytes} {year month day : ℕ} (h : DateText s year month day) :
    parseDateFields s = if year < 2 ^ 63 then some (year, month, day) else none := by
  obtain ⟨hy, hlen, hm, hd, hday⟩ := h
  have hsplit := splitOn_triple.2 ⟨rfl, not_mem_of_allDigits hy (b := 45) (by decide),
    not_mem_of_allDigits hm (b := 45) (by decide), not_mem_of_allDigits hd (b := 45) (by decide)⟩
  have hmonth := hday.month_le
  have h31 := hday.day_le.trans (daysInMonth_le _ _)
  rw [parseDateFields, hsplit]
  simp only
  rw [if_neg (by simp [hy, hm, hd, hlen])]
  refine if_congr ⟨fun h => h.1, fun h => ⟨h, ?_, ?_⟩⟩ rfl rfl
  · omega
  · omega

theorem DateText.isDay {s : Bytes} {year month day : ℕ} (h : DateText s year month day) :
    IsDay year month day := by
  cases h
  assumption

theorem parseDateFields_iff {s : Bytes} {year month day : ℕ} :
    parseDateFields s = some (year, month, day) ∧ IsDay year month day ↔
      DateText s year month day ∧ year < 2 ^ 63 := by
  constructor
  · rintro ⟨h, hday⟩
    rw [parseDateFields] at h
    split at h
    next y m d hsplit =>
      obtain ⟨rfl, -, -, -⟩ := splitOn_triple.1 hsplit
      split_ifs at h with hno hfits
      obtain ⟨rfl, rfl, rfl⟩ := h
      simp only [not_or, not_lt, Bool.not_eq_true', Bool.not_eq_false] at hno
      exact ⟨.mk hno.2.1 hno.1 hno.2.2.1 hno.2.2.2 hday, hfits.1⟩
    next => cases h
  · rintro ⟨ht, hyear⟩
    exact ⟨by rw [parseDateFields_of_text ht, if_pos hyear], ht.isDay⟩

/-! ### Times of day -/

theorem Field.not_mem {text : Bytes} {n bound : ℕ} (h : Field text n bound) {b : Fin 256}
    (hb : b < 48 ∨ 57 < b) : b ∉ text := not_mem_of_allDigits h.digits hb

theorem fractionText_iff {frac : Option Bytes} {us : ℕ} :
    (frac.elim (some 0) fun f =>
      if f ≠ [] ∧ allDigits f then some (digitsValue (padRight 6 (f.take 6))) else none) = some us ↔
    FractionText (frac.elim [] (46 :: ·)) us := by
  cases frac with
  | none =>
    rw [Option.elim_none, Option.elim_none, Option.some.injEq]
    constructor
    · rintro rfl
      exact .none
    · rintro ⟨⟩
      rfl
  | some f =>
    rw [Option.elim_some, Option.elim_some]
    constructor
    · intro h
      split_ifs at h with hf
      rw [Option.some.injEq, digitsValue_fraction (allDigits_iff.1 hf.2).2] at h
      rw [← h]
      exact .point hf.2
    · rintro ⟨⟩
      next hf =>
        rw [if_pos ⟨(allDigits_iff.1 hf).1, hf⟩, digitsValue_fraction (allDigits_iff.1 hf).2]

theorem secondField_iff {ss : Option Bytes} {s : ℕ} :
    (ss.elim (some 0) fun ss =>
      if ss.length = 2 ∧ allDigits ss then some (digitsValue ss) else none) = some s ∧ s ≤ 59 ↔
    ss.elim (s = 0) (Field · s 59) := by
  cases ss with
  | none =>
    rw [Option.elim_none, Option.elim_none, Option.some.injEq]
    constructor
    · exact fun h => h.1.symm
    · rintro rfl
      exact ⟨rfl, by decide⟩
  | some ss =>
    rw [Option.elim_some, Option.elim_some]
    constructor
    · rintro ⟨h, hle⟩
      split_ifs at h with hss
      exact ⟨hss.1, hss.2, Option.some.inj h, hle⟩
    · rintro ⟨hlen, hdig, hval, hle⟩
      rw [if_pos ⟨hlen, hdig⟩, hval]
      exact ⟨rfl, hle⟩

theorem clockFields_iff {hh mm : Bytes} {ss frac : Option Bytes} {h m s us : ℕ} :
    clockFields hh mm ss frac = some (h, m, s, us) ∧ h ≤ 23 ∧ m ≤ 59 ∧ s ≤ 59 ↔
      Field hh h 23 ∧ Field mm m 59 ∧ ss.elim (s = 0) (Field · s 59) ∧
        FractionText (frac.elim [] (46 :: ·)) us := by
  rw [← fractionText_iff, ← secondField_iff]
  constructor
  · rintro ⟨hf, hh23, hm59, hs59⟩
    rw [clockFields] at hf
    split_ifs at hf with hno
    simp only [not_or, not_not, ne_eq, Bool.not_eq_true', Bool.not_eq_false] at hno
    obtain ⟨ssVal, hss, hf⟩ := Option.bind_eq_some_iff.1 hf
    obtain ⟨fracUs, hfrac, hf⟩ := Option.bind_eq_some_iff.1 hf
    cases hf
    exact ⟨⟨hno.1, hno.2.2.1, rfl, hh23⟩, ⟨hno.2.1, hno.2.2.2, rfl, hm59⟩, ⟨hss, hs59⟩, hfrac⟩
  · rintro ⟨⟨hlen, hdig, hval, hle⟩, ⟨hlen', hdig', hval', hle'⟩, ⟨hss, hs59⟩, hfrac⟩
    refine ⟨?_, hle, hle', hs59⟩
    rw [clockFields, if_neg (by simp [hlen, hlen', hdig, hdig']), hss, hfrac, hval, hval']
    rfl

theorem exists_clock (s : Bytes) :
    ∃ (clock : Bytes) (frac : Option Bytes), s = clock ++ frac.elim [] (46 :: ·) ∧ 46 ∉ clock := by
  by_cases hmem : 46 ∈ s
  · obtain ⟨clock, f, rfl, hno⟩ := List.eq_append_cons_of_mem hmem
    exact ⟨clock, some f, rfl, hno⟩
  · exact ⟨s, none, (List.append_nil s).symm, hmem⟩

theorem parseClock_append {clock : Bytes} {frac : Option Bytes} (h : 46 ∉ clock) :
    parseClock (clock ++ frac.elim [] (46 :: ·)) = clockParts clock frac := by
  have hno : ∀ b ∈ clock, decide (b = 46) = false :=
    fun b hb => decide_eq_false fun heq => h (heq ▸ hb)
  cases frac with
  | none => rw [parseClock, Option.elim_none, List.append_nil, List.findIdx?_eq_none_iff.2 hno]
  | some f =>
    rw [parseClock, Option.elim_some, findIdx?_append_cons hno (by decide)]
    simp only [List.take_left, List.drop_append, List.drop_one, Nat.add_sub_cancel_left,
      List.tail_cons, List.drop_eq_nil_of_le (Nat.le_succ clock.length), List.nil_append]

theorem parseClock_iff {text : Bytes} {h m s us : ℕ} :
    parseClock text = some (h, m, s, us) ∧ h ≤ 23 ∧ m ≤ 59 ∧ s ≤ 59 ↔ ClockText text h m s us := by
  constructor
  · obtain ⟨clock, frac, rfl, hno⟩ := exists_clock text
    rw [parseClock_append hno, clockParts]
    split
    next hh mm hsplit =>
      obtain ⟨rfl, -, -⟩ := splitOn_pair.1 hsplit
      rw [clockFields_iff]
      rintro ⟨hhh, hmm, hss, hf⟩
      cases hss
      exact .minutes hhh hmm hf
    next hh mm ss hsplit =>
      obtain ⟨rfl, -, -, -⟩ := splitOn_triple.1 hsplit
      rw [clockFields_iff]
      rintro ⟨hhh, hmm, hss, hf⟩
      exact .seconds hhh hmm hss hf
    next => exact fun hf => by cases hf.1
  · have hfrac : ∀ {f : Bytes} {us : ℕ}, FractionText f us →
        ∃ frac : Option Bytes, f = frac.elim [] (46 :: ·) := by
      rintro _ _ (_ | @⟨f, -⟩)
      exacts [⟨none, rfl⟩, ⟨some f, rfl⟩]
    rintro (@⟨hh, mm, _, _, _, _, hhh, hmm, hf⟩ | @⟨hh, mm, ss, _, _, _, _, _, hhh, hmm, hss, hf⟩)
    · obtain ⟨frac, rfl⟩ := hfrac hf
      have hsplit := splitOn_pair.2 ⟨rfl, hhh.not_mem (b := 58) (by decide),
        hmm.not_mem (b := 58) (by decide)⟩
      rw [parseClock_append, clockParts, hsplit]
      · exact clockFields_iff.2 ⟨hhh, hmm, rfl, hf⟩
      · simp [hhh.not_mem (b := 46) (by decide), hmm.not_mem (b := 46) (by decide)]
    · obtain ⟨frac, rfl⟩ := hfrac hf
      have hsplit := splitOn_triple.2 ⟨rfl, hhh.not_mem (b := 58) (by decide),
        hmm.not_mem (b := 58) (by decide), hss.not_mem (b := 58) (by decide)⟩
      rw [parseClock_append, clockParts, hsplit]
      · exact clockFields_iff.2 ⟨hhh, hmm, hss, hf⟩
      · simp [hhh.not_mem (b := 46) (by decide), hmm.not_mem (b := 46) (by decide),
          hss.not_mem (b := 46) (by decide)]

/-! ### Offsets -/

theorem field_zero {n : ℕ} : Field [48, 48] n 59 ↔ n = 0 :=
  ⟨fun h => h.value.symm, fun h => ⟨rfl, by decide +kernel, h ▸ rfl, h ▸ Nat.zero_le 59⟩⟩

theorem zoneSeconds_iff {sign offset : ℤ} {hh mm ss : Bytes} :
    zoneSeconds sign (hh, mm, ss) = some offset ↔ ∃ h m s : ℕ, Field hh h 23 ∧ Field mm m 59 ∧
      Field ss s 59 ∧ offset = sign * (h * 3600 + m * 60 + s) := by
  constructor
  · intro h
    rw [zoneSeconds] at h
    split_ifs at h with hlen hdig hval
    simp only [not_or, not_not, not_lt, ne_eq, Bool.not_eq_true', Bool.not_eq_false]
      at hlen hdig hval
    exact ⟨_, _, _, ⟨hlen.1, hdig.1, rfl, hval.1⟩, ⟨hlen.2.1, hdig.2.1, rfl, hval.2.1⟩,
      ⟨hlen.2.2, hdig.2.2, rfl, hval.2.2⟩, (Option.some.inj h).symm⟩
  · rintro ⟨h, m, s, ⟨hl, hd, rfl, hle⟩, ⟨hl', hd', rfl, hle'⟩, ⟨hl'', hd'', rfl, hle''⟩, rfl⟩
    rw [zoneSeconds, if_neg (by simp [hl, hl', hl'']), if_neg (by simp [hd, hd', hd'']),
      if_neg (by omega)]
    rfl

theorem zoneParts_panic_iff {rest : Bytes} : zoneParts rest = .error .panic ↔
    58 ∉ rest ∧ rest.length = 4 ∧ isCharBoundary rest 2 = false := by
  by_cases hcolon : 58 ∈ rest
  · rw [zoneParts, if_pos hcolon]
    refine ⟨fun h => ?_, fun h => absurd hcolon h.1⟩
    split at h <;> cases h
  · rw [zoneParts, if_neg hcolon]
    split_ifs with h2 h4 hmid
    · simp [h2]
    · simp [hmid]
    · simp [hcolon, h4, hmid]
    · simp [h4]

/-- The middle of four digits is between characters. -/
theorem isCharBoundary_of_field {hh mm : Bytes} {h m : ℕ} (hhh : Field hh h 23)
    (hmm : Field mm m 59) : isCharBoundary (hh ++ mm) 2 = true := by
  obtain ⟨a, t, rfl⟩ := List.exists_cons_of_ne_nil (allDigits_iff.1 hmm.digits).1
  have ha := (allDigits_iff.1 hmm.digits).2 a List.mem_cons_self
  have hlow : a < 0x80 := by omega
  have hmid : isCharBoundary (hh ++ a :: t) hh.length = true := isCharBoundary_before hlow
  rwa [hhh.length] at hmid

theorem zoneParts_iff {sign offset : ℤ} {rest : Bytes} :
    ((zoneParts rest).map fun p => p.bind (zoneSeconds sign)) = .ok (some offset) ↔
      ∃ h m s : ℕ, OffsetText rest h m s ∧ offset = sign * (h * 3600 + m * 60 + s) := by
  constructor
  · intro h
    obtain ⟨parts, hparts, h⟩ : ∃ parts, zoneParts rest = .ok (some parts) ∧
        zoneSeconds sign parts = some offset := by
      cases hp : zoneParts rest with
      | error e =>
        rw [hp] at h
        cases h
      | ok p =>
        rw [hp] at h
        obtain ⟨parts, rfl, hs⟩ := Option.bind_eq_some_iff.1 (Except.ok.inj h)
        exact ⟨parts, rfl, hs⟩
    obtain ⟨hh, mm, ss⟩ := parts
    obtain ⟨h, m, s, hhh, hmm, hss, hoff⟩ := zoneSeconds_iff.1 h
    refine ⟨h, m, s, ?_, hoff⟩
    rw [zoneParts] at hparts
    split_ifs at hparts with hcolon h2 h4 hmid
    · split at hparts
      next hh' hsplit =>
        obtain ⟨rfl, hno⟩ := splitOn_single.1 hsplit
        exact absurd hcolon hno
      next hh' mm' hsplit =>
        obtain ⟨rfl, -, -⟩ := splitOn_pair.1 hsplit
        cases hparts
        cases field_zero.1 hss
        exact .minutes hhh hmm
      next hh' mm' ss' hsplit =>
        obtain ⟨rfl, -, -, -⟩ := splitOn_triple.1 hsplit
        cases hparts
        exact .seconds hhh hmm hss
      next => cases hparts
    · cases hparts
      cases field_zero.1 hmm
      cases field_zero.1 hss
      exact .hours hhh
    · cases hparts
      cases field_zero.1 hss
      rw [← List.take_append_drop 2 rest]
      exact .compact hhh hmm
    · cases hparts
  · rintro ⟨h, m, s, ht, rfl⟩
    obtain ⟨parts, hparts, hsecs⟩ : ∃ parts, zoneParts rest = .ok (some parts) ∧
        zoneSeconds sign parts = some (sign * (h * 3600 + m * 60 + s)) := by
      cases ht with
      | hours hhh =>
        refine ⟨(rest, [48, 48], [48, 48]), ?_, zoneSeconds_iff.2
          ⟨h, 0, 0, hhh, field_zero.2 rfl, field_zero.2 rfl, rfl⟩⟩
        rw [zoneParts, if_neg (hhh.not_mem (by decide)), if_pos hhh.length]
      | compact hhh hmm =>
        next hh mm =>
        refine ⟨(hh, mm, [48, 48]), ?_, zoneSeconds_iff.2
          ⟨h, m, 0, hhh, hmm, field_zero.2 rfl, rfl⟩⟩
        have hlen : (hh ++ mm).length = 4 := by rw [List.length_append, hhh.length, hmm.length]
        have hno : 58 ∉ hh ++ mm := by
          simp [hhh.not_mem (b := 58) (by decide), hmm.not_mem (b := 58) (by decide)]
        rw [zoneParts, if_neg hno, if_neg (by omega), if_pos hlen,
          if_pos (isCharBoundary_of_field hhh hmm), List.take_left' hhh.length,
          List.drop_left' hhh.length]
      | minutes hhh hmm =>
        next hh mm =>
        refine ⟨(hh, mm, [48, 48]), ?_, zoneSeconds_iff.2
          ⟨h, m, 0, hhh, hmm, field_zero.2 rfl, rfl⟩⟩
        have hsplit := splitOn_pair.2 ⟨rfl, hhh.not_mem (b := 58) (by decide),
          hmm.not_mem (b := 58) (by decide)⟩
        rw [zoneParts, if_pos (by simp), hsplit]
      | seconds hhh hmm hss =>
        next hh mm ss =>
        refine ⟨(hh, mm, ss), ?_, zoneSeconds_iff.2 ⟨h, m, s, hhh, hmm, hss, rfl⟩⟩
        have hsplit := splitOn_triple.2 ⟨rfl, hhh.not_mem (b := 58) (by decide),
          hmm.not_mem (b := 58) (by decide), hss.not_mem (b := 58) (by decide)⟩
        rw [zoneParts, if_pos (by simp), hsplit]
    rw [hparts]
    exact congrArg Except.ok hsecs

theorem parseZone_cons {c : Fin 256} {t : Bytes} {sign : ℤ} (hc : SignText c sign) :
    isCharBoundary (c :: t) 1 = true →
      parseZone (c :: t) = (zoneParts t).map fun p => p.bind (zoneSeconds sign) := by
  intro hcut
  cases hc
  · rw [parseZone, if_neg (by simp), hcut]
    rfl
  · rw [parseZone, if_neg (by simp), hcut]
    rfl

theorem parseZone_iff {text : Bytes} {offset : ℤ}
    (hcut : text = [] ∨ isCharBoundary text 1 = true) :
    parseZone text = .ok (some offset) ↔ ZoneText text offset := by
  constructor
  · intro h
    rw [parseZone] at h
    split_ifs at h with hutc hno hplus hminus
    · cases h
      rcases hutc with rfl | rfl | rfl
      exacts [.absent, .utc (.inr rfl), .utc (.inl rfl)]
    · obtain ⟨t, rfl⟩ := List.head?_eq_some_iff.1 hplus
      obtain ⟨hh, mm, ss, ht, rfl⟩ := zoneParts_iff.1 h
      exact .offset .plus ht
    · obtain ⟨t, rfl⟩ := List.head?_eq_some_iff.1 hminus
      obtain ⟨hh, mm, ss, ht, rfl⟩ := zoneParts_iff.1 h
      exact .offset .minus ht
    · cases h
  · rintro (_ | @⟨c, hc⟩ | @⟨c, t, sign, h, m, s, hc, ht⟩)
    · rfl
    · rw [parseZone, if_pos]
      rcases hc with rfl | rfl
      exacts [.inr (.inr rfl), .inr (.inl rfl)]
    · rw [parseZone_cons hc (hcut.resolve_left (by simp))]
      exact zoneParts_iff.2 ⟨h, m, s, ht, rfl⟩

theorem map_eq_panic_iff {α β : Type*} {x : Except Stop α} {f : α → β} :
    x.map f = .error .panic ↔ x = .error .panic := by
  cases x <;> simp [Except.map]

theorem parseZone_panic_iff {text : Bytes} (hcut : text = [] ∨ isCharBoundary text 1 = true) :
    parseZone text = .error .panic ↔ ∃ c sign rest, text = c :: rest ∧ SignText c sign ∧ 58 ∉ rest ∧
      rest.length = 4 ∧ isCharBoundary rest 2 = false := by
  constructor
  · intro h
    rw [parseZone] at h
    split_ifs at h with hutc hno hplus hminus
    · rcases hcut with rfl | hcut
      · exact absurd (.inl rfl) hutc
      · rw [hcut] at hno
        cases hno
    · obtain ⟨t, rfl⟩ := List.head?_eq_some_iff.1 hplus
      exact ⟨_, _, t, rfl, .plus, zoneParts_panic_iff.1 (map_eq_panic_iff.1 h)⟩
    · obtain ⟨t, rfl⟩ := List.head?_eq_some_iff.1 hminus
      exact ⟨_, _, t, rfl, .minus, zoneParts_panic_iff.1 (map_eq_panic_iff.1 h)⟩
  · rintro ⟨c, sign, rest, rfl, hc, hrest⟩
    rw [parseZone_cons hc (hcut.resolve_left (by simp)), map_eq_panic_iff]
    exact zoneParts_panic_iff.2 hrest

/-- Reading an offset stops the process or ends with an offset or none. -/
theorem parseZone_cases (text : Bytes) :
    parseZone text = .error .panic ∨ ∃ offset, parseZone text = .ok offset := by
  have hparts : ∀ rest, zoneParts rest = .error .panic ∨ ∃ p, zoneParts rest = .ok p := by
    intro rest
    rw [zoneParts]
    split_ifs
    · split <;> exact .inr ⟨_, rfl⟩
    · exact .inr ⟨_, rfl⟩
    · exact .inr ⟨_, rfl⟩
    · exact .inl rfl
    · exact .inr ⟨_, rfl⟩
  rw [parseZone]
  split_ifs
  · exact .inr ⟨_, rfl⟩
  · exact .inl rfl
  · rcases hparts (text.drop 1) with hp | ⟨p, hp⟩
    · exact .inl (map_eq_panic_iff.2 hp)
    · exact .inr ⟨_, by rw [hp]; rfl⟩
  · rcases hparts (text.drop 1) with hp | ⟨p, hp⟩
    · exact .inl (map_eq_panic_iff.2 hp)
    · exact .inr ⟨_, by rw [hp]; rfl⟩
  · exact .inr ⟨_, rfl⟩

/-! ### Counting days -/

/-- **The closed form counts the days of the calendar.** -/
theorem daysFromCivil_eq {year month day : ℕ} (h : IsDay year month day) :
    daysFromCivil year month day =
      if FitsI64 (epochDay year month day) then some (epochDay year month day) else none := by
  obtain ⟨y, hy⟩ : ∃ y : ℤ, y = (year : ℤ) - if month ≤ 2 then 1 else 0 := ⟨_, rfl⟩
  have hlow : -1 ≤ y := by
    split_ifs at hy <;> omega
  -- the quotients round towards zero, which is down but for the year −1
  have hera : (if 0 ≤ y then y else y - 399).tdiv 400 = y / 400 := by
    by_cases h0 : 0 ≤ y
    · rw [if_pos h0, Int.tdiv_eq_ediv_of_nonneg h0]
    · have hone : y = -1 := by omega
      rw [hone]
      rfl
  have hyoe : 0 ≤ y - y / 400 * 400 := by omega
  have hmp : 0 ≤ 153 * (if 2 < month then (month : ℤ) - 3 else (month : ℤ) + 9) + 2 := by
    split_ifs <;> omega
  have hdays : epochDay year month day = y / 400 * 146097 + ((y - y / 400 * 400) * 365 +
      (y - y / 400 * 400) / 4 - (y - y / 400 * 400) / 100 +
        ((153 * (if 2 < month then (month : ℤ) - 3 else (month : ℤ) + 9) + 2) / 5 + day - 1)) -
          719468 := by
    rw [epochDay_eq, era_days h.month_pos h.month_le h.day_pos hy]
    ring
  simp only [daysFromCivil]
  rw [← hy, hera, Int.tdiv_eq_ediv_of_nonneg hyoe, Int.tdiv_eq_ediv_of_nonneg hyoe,
    Int.tdiv_eq_ediv_of_nonneg hmp, ← hdays]

theorem le_epochDay (year month day : ℕ) : -719528 ≤ epochDay year month day := by
  rw [epochDay_eq]
  omega

/-- Every year has at least one day. -/
theorem year_le_epochDay (year month day : ℕ) : (year : ℤ) - 719528 ≤ epochDay year month day := by
  have hyears : year ≤ ∑ y ∈ Finset.range year, daysInYear y := by
    calc year = ∑ _y ∈ Finset.range year, 1 := by simp
      _ ≤ ∑ y ∈ Finset.range year, daysInYear y := by
        refine Finset.sum_le_sum fun y _ => ?_
        rw [daysInYear_eq]
        split_ifs <;> omega
  rw [epochDay_eq, dayNumber]
  omega

theorem not_fits_of_year {year month day : ℕ} (h : 2 ^ 63 ≤ year) :
    ¬FitsI64 (epochDay year month day * (24 * 3600 * 10 ^ 6)) := by
  have hle := year_le_epochDay year month day
  simp only [FitsI64, i64Max]
  omega

theorem instantOf_eq {typeName : String} {input : Bytes} {year month day h m s us : ℕ} {offset : ℤ}
    (hday : IsDay year month day) :
    instantOf typeName input year month day h m s us offset =
      if FitsI64 (localMicros year month day h m s us) ∧
          FitsI64 (localMicros year month day h m s us - offset * 10 ^ 6) then
        .ok (localMicros year month day h m s us - offset * 10 ^ 6)
      else .error (.refused ⟨typeName, input, "instant out of range"⟩) := by
  have hlow := le_epochDay year month day
  have hlocal : epochDay year month day * microsPerDay +
      ((h * secsPerHour + m * 60 + s) * microsPerSec + us) =
        localMicros year month day h m s us := by
    simp only [localMicros, microsPerDay, microsPerSec, secsPerHour]
    ring
  -- later than the day, and no day is too early
  have hmul : FitsI64 (localMicros year month day h m s us) →
      FitsI64 (epochDay year month day * microsPerDay) := by
    simp only [localMicros, FitsI64, microsPerDay, microsPerSec, i64Min, i64Max]
    omega
  have hdays : FitsI64 (epochDay year month day * microsPerDay) →
      FitsI64 (epochDay year month day) := by
    simp only [FitsI64, microsPerDay, microsPerSec, i64Min, i64Max]
    omega
  have hsec : microsPerSec = 10 ^ 6 := rfl
  simp only [instantOf]
  rw [daysFromCivil_eq hday]
  by_cases hd : FitsI64 (epochDay year month day)
  · rw [if_pos hd]
    dsimp only
    rw [hlocal, hsec]
    by_cases hl : FitsI64 (localMicros year month day h m s us)
    · rw [if_neg (not_not.2 (hmul hl)), if_neg (not_not.2 hl)]
      by_cases hu : FitsI64 (localMicros year month day h m s us - offset * 10 ^ 6)
      · rw [if_neg (not_not.2 hu), if_pos ⟨hl, hu⟩]
      · rw [if_pos hu, if_neg fun hfits => hu hfits.2]
    · rw [if_pos hl, ite_self, if_neg fun hfits => hl hfits.1]
  · rw [if_neg hd, if_neg fun hfits => hd (hdays (hmul hfits.1))]

/-! ### Whole literals -/

/-- **A date literal is accepted exactly if it names a day whose number fits.** -/
theorem parseDate_ok_iff {input : Bytes} {v : ℤ} : parseDate input = .ok v ↔ ∃ year month day,
    DateText (trim input) year month day ∧ v = epochDay year month day ∧ FitsI32 v := by
  constructor
  · intro h
    simp only [parseDate] at h
    cases hf : parseDateFields (trim input) with
    | none =>
      rw [hf] at h
      cases h
    | some fields =>
      obtain ⟨year, month, day⟩ := fields
      rw [hf] at h
      dsimp only at h
      split_ifs at h with hm hd
      have hday : IsDay year month day := ⟨hm.1, hm.2, hd.1, hd.2⟩
      rw [daysFromCivil_eq hday] at h
      split_ifs at h with hfits
      dsimp only at h
      split_ifs at h with h32
      rw [Except.ok.injEq] at h
      subst h
      exact ⟨year, month, day, (parseDateFields_iff.1 ⟨hf, hday⟩).1, rfl, h32⟩
  · rintro ⟨year, month, day, ht, hv, h32⟩
    subst hv
    have hle := year_le_epochDay year month day
    have hyear : year < 2 ^ 63 := by
      have hmax := h32.2
      omega
    obtain ⟨hf, hday⟩ := parseDateFields_iff.2 ⟨ht, hyear⟩
    have hfits : FitsI64 (epochDay year month day) := by
      simp only [FitsI32, FitsI64, i64Min, i64Max] at h32 ⊢
      omega
    simp only [parseDate]
    rw [hf]
    dsimp only
    rw [if_neg (not_not.2 ⟨hday.month_pos, hday.month_le⟩),
      if_neg (not_not.2 ⟨hday.day_pos, hday.day_le⟩), daysFromCivil_eq hday, if_pos hfits]
    dsimp only
    rw [if_pos h32]

theorem parseDate_no_panic (input : Bytes) : parseDate input ≠ .error .panic := by
  intro h
  simp only [parseDate] at h
  split at h
  next => cases h
  next year month day hf =>
    split_ifs at h <;> try cases h
    split at h
    next => cases h
    next => split_ifs at h; cases h

section

variable {typeName : String} {input date clock zone : Bytes} {year month day h m s us : ℕ}

theorem parseParts_of_texts (hdate : DateText date year month day) (hyear : year < 2 ^ 63)
    (hclock : ClockText clock h m s us) (typeName : String) (input zone : Bytes) :
    ∃ e, parseParts typeName input date clock zone = (parseZone zone).bind fun offset =>
      offset.elim (.error (.refused e)) (instantOf typeName input year month day h m s us) := by
  obtain ⟨hf, hday⟩ := parseDateFields_iff.2 ⟨hdate, hyear⟩
  obtain ⟨hc, h23, m59, s59⟩ := parseClock_iff.2 hclock
  simp only [parseParts]
  rw [hf]
  dsimp only
  rw [if_neg (not_not.2 ⟨hday.month_pos, hday.month_le⟩),
    if_neg (not_not.2 ⟨hday.day_pos, hday.day_le⟩), hc]
  dsimp only
  rw [if_neg (by omega)]
  refine ⟨⟨typeName, input, "malformed time zone offset"⟩, ?_⟩
  congr 1
  funext offset
  cases offset <;> rfl

/-- A literal with another date or time of day is refused. -/
theorem parseParts_cases (typeName : String) (input date clock zone : Bytes) :
    (∃ e, parseParts typeName input date clock zone = .error (.refused e)) ∨
      ∃ year month day h m s us, DateText date year month day ∧ year < 2 ^ 63 ∧
        ClockText clock h m s us := by
  cases hf : parseDateFields date with
  | none => exact .inl ⟨_, by simp only [parseParts, hf]; rfl⟩
  | some fields =>
    obtain ⟨year, month, day⟩ := fields
    by_cases hm : 1 ≤ month ∧ month ≤ 12
    · by_cases hd : 1 ≤ day ∧ day ≤ daysInMonth year month
      · cases hc : parseClock clock with
        | none =>
          refine .inl ⟨⟨typeName, input, "malformed time"⟩, ?_⟩
          simp only [parseParts, hf, hc]
          rw [if_neg (not_not.2 hm), if_neg (not_not.2 hd)]
        | some fields =>
          obtain ⟨h, m, s, us⟩ := fields
          by_cases hrange : 23 < h ∨ 59 < m ∨ 59 < s
          · refine .inl ⟨⟨typeName, input, "clock field out of range"⟩, ?_⟩
            simp only [parseParts, hf, hc]
            rw [if_neg (not_not.2 hm), if_neg (not_not.2 hd), if_pos hrange]
          · obtain ⟨hdate, hyear⟩ := parseDateFields_iff.1 ⟨hf, hm.1, hm.2, hd.1, hd.2⟩
            exact .inr ⟨year, month, day, h, m, s, us, hdate, hyear,
              parseClock_iff.1 ⟨hc, by omega⟩⟩
      · refine .inl ⟨⟨typeName, input, "day out of range for month"⟩, ?_⟩
        simp only [parseParts, hf]
        rw [if_neg (not_not.2 hm), if_pos hd]
    · refine .inl ⟨⟨typeName, input, "month out of range"⟩, ?_⟩
      simp only [parseParts, hf]
      rw [if_pos hm]

/-- A literal of a date, a time of day and an offset is accepted exactly if the local time and the
instant both fit. -/
theorem parseParts_eq (hdate : DateText date year month day) (hclock : ClockText clock h m s us)
    {offset : ℤ} (hzone : parseZone zone = .ok (some offset)) :
    ∃ e, parseParts typeName input date clock zone =
      if FitsI64 (localMicros year month day h m s us) ∧
          FitsI64 (localMicros year month day h m s us - offset * 10 ^ 6) then
        .ok (localMicros year month day h m s us - offset * 10 ^ 6)
      else .error (.refused e) := by
  by_cases hyear : year < 2 ^ 63
  · obtain ⟨e, he⟩ := parseParts_of_texts hdate hyear hclock typeName input zone
    rw [hzone] at he
    exact ⟨_, he.trans (instantOf_eq hdate.isDay)⟩
  · have hno : ¬FitsI64 (epochDay year month day * (24 * 3600 * 10 ^ 6)) :=
      not_fits_of_year (not_lt.1 hyear)
    have hlocal : ¬FitsI64 (localMicros year month day h m s us) := by
      have hlow := year_le_epochDay year month day
      simp only [localMicros, FitsI64, i64Min, i64Max]
      omega
    refine ⟨⟨typeName, input, "malformed date"⟩, ?_⟩
    simp only [parseParts, parseDateFields_of_text hdate]
    rw [if_neg hyear, if_neg fun hfits => hlocal hfits.1]

end

/-! ### Cutting a literal -/

/-- A text is cut into a date, a time of day and an offset. -/
structure Cut (text date : Bytes) (sep : Fin 256) (clock zone : Bytes) : Prop where
  eq : text = date ++ sep :: (clock ++ zone)
  date : ∀ b ∈ date, ¬(b = 32 ∨ b = 84 ∨ b = 116)
  sep : sep = 32 ∨ sep = 84 ∨ sep = 116
  clock : ∀ b ∈ clock, ¬(b = 43 ∨ b = 45 ∨ b = 90 ∨ b = 122)
  zone : zone = [] ∨ ∃ c t, zone = c :: t ∧ (c = 43 ∨ c = 45 ∨ c = 90 ∨ c = 122)

section

variable {input date clock zone : Bytes} {sep : Fin 256}

/-- The rest of a text begins with a character. -/
theorem Cut.boundary (h : Cut (trim input) date sep clock zone) (hvalid : validUtf8 input) :
    isCharBoundary (sep :: (clock ++ zone)) 1 = true ∧
      (zone = [] ∨ isCharBoundary zone 1 = true) := by
  have htrim := validUtf8_trim hvalid
  rw [h.eq] at htrim
  have hsep : sep < 0x80 := by
    have hcases := h.sep
    omega
  have hdate := validUtf8_before (by omega) htrim
  have hrest := validUtf8_of_append hdate htrim
  refine ⟨isCharBoundary_after (l := []) hsep hrest, ?_⟩
  rcases h.zone with hnil | ⟨c, t, rfl, hc⟩
  · exact .inl hnil
  · have hc' : c < 0x80 := by omega
    rw [← List.cons_append] at hrest
    have hclock := validUtf8_before (by omega) hrest
    exact .inr (isCharBoundary_after (l := []) hc' (validUtf8_of_append hclock hrest))

theorem parseInstant_of_cut (h : Cut (trim input) date sep clock zone) (hvalid : validUtf8 input)
    (typeName : String) (allowZone : Bool) :
    ∃ e, parseInstant input typeName allowZone =
      if !allowZone ∧ zone ≠ [] then .error (.refused e)
      else parseParts typeName input date clock zone := by
  have hsep : (trim input).findIdx? (fun b => b = 32 ∨ b = 84 ∨ b = 116) = some date.length := by
    rw [h.eq]
    exact findIdx?_append_cons (fun b hb => decide_eq_false (h.date b hb)) (decide_eq_true h.sep)
  have hdrop : (trim input).drop date.length = sep :: (clock ++ zone) := by
    rw [h.eq, List.drop_left]
  have htake : (trim input).take date.length = date := by
    rw [h.eq, List.take_left]
  refine ⟨⟨typeName, input,
    "a zone offset is not allowed on a zone-less timestamp — use TIMESTAMPTZ"⟩, ?_⟩
  simp only [parseInstant]
  rw [hsep]
  dsimp only
  rw [hdrop, htake, (h.boundary hvalid).1, if_neg (by simp), List.drop_one, List.tail_cons]
  rcases h.zone with rfl | ⟨c, t, rfl, hc⟩
  · rw [List.append_nil, List.findIdx?_eq_none_iff.2 fun b hb => decide_eq_false (h.clock b hb)]
  · rw [findIdx?_append_cons (fun b hb => decide_eq_false (h.clock b hb)) (decide_eq_true hc)]
    simp only [List.take_left, List.drop_left]

/-- A literal without a space or `T` is refused. -/
theorem exists_cut (input : Bytes) (typeName : String) (allowZone : Bool) :
    (∃ e, parseInstant input typeName allowZone = .error (.refused e)) ∨
      ∃ date sep clock zone, Cut (trim input) date sep clock zone := by
  cases hsep : (trim input).findIdx? (fun b => b = 32 ∨ b = 84 ∨ b = 116) with
  | none =>
    refine .inl ⟨⟨typeName, input, "expected a date and time separated by space or 'T'"⟩, ?_⟩
    simp only [parseInstant]
    rw [hsep]
  | some i =>
    obtain ⟨sep, heq, -, hs, hdate⟩ := exists_of_findIdx? hsep
    refine .inr ⟨(trim input).take i, sep, ?_⟩
    cases hz : ((trim input).drop (i + 1)).findIdx?
      (fun b => b = 43 ∨ b = 45 ∨ b = 90 ∨ b = 122) with
    | none =>
      have hno := List.findIdx?_eq_none_iff.1 hz
      exact ⟨_, [], by rw [List.append_nil]; exact heq,
        fun b hb => of_decide_eq_false (hdate b hb), of_decide_eq_true hs,
        fun b hb => of_decide_eq_false (hno b hb), .inl rfl⟩
    | some j =>
      obtain ⟨c, heq', -, hc, hclock⟩ := exists_of_findIdx? hz
      refine ⟨((trim input).drop (i + 1)).take j, c :: ((trim input).drop (i + 1)).drop (j + 1), ?_,
        fun b hb => of_decide_eq_false (hdate b hb), of_decide_eq_true hs,
        fun b hb => of_decide_eq_false (hclock b hb), .inr ⟨c, _, rfl, of_decide_eq_true hc⟩⟩
      rw [← heq']
      exact heq

theorem DateText.mem {year month day : ℕ} (h : DateText date year month day) {b : Fin 256}
    (hb : b ∈ date) : 45 ≤ b ∧ b ≤ 57 := by
  obtain ⟨hy, -, hm, hd, -⟩ := h
  simp only [List.mem_append, List.mem_cons] at hb
  rcases hb with hb | rfl | hb | rfl | hb
  · have hrange := (allDigits_iff.1 hy).2 b hb
    omega
  · decide
  · have hrange := (allDigits_iff.1 hm).2 b hb
    omega
  · decide
  · have hrange := (allDigits_iff.1 hd).2 b hb
    omega

theorem Field.mem {text : Bytes} {n bound : ℕ} (h : Field text n bound) {b : Fin 256}
    (hb : b ∈ text) : 46 ≤ b ∧ b ≤ 58 := by
  have hrange := (allDigits_iff.1 h.digits).2 b hb
  omega

theorem FractionText.mem {f : Bytes} {us : ℕ} (h : FractionText f us) {b : Fin 256} (hb : b ∈ f) :
    46 ≤ b ∧ b ≤ 58 := by
  obtain _ | hf := h
  · cases hb
  · rcases List.mem_cons.1 hb with rfl | hb
    · decide
    · have hrange := (allDigits_iff.1 hf).2 b hb
      omega

theorem ClockText.mem {h m s us : ℕ} (h : ClockText clock h m s us) {b : Fin 256}
    (hb : b ∈ clock) : 46 ≤ b ∧ b ≤ 58 := by
  obtain ⟨hhh, hmm, hf⟩ | ⟨hhh, hmm, hss, hf⟩ := h
  · simp only [List.mem_append, List.mem_cons] at hb
    rcases hb with (hb | rfl | hb) | hb
    exacts [hhh.mem hb, by decide, hmm.mem hb, hf.mem hb]
  · simp only [List.mem_append, List.mem_cons] at hb
    rcases hb with (hb | rfl | hb | rfl | hb) | hb
    exacts [hhh.mem hb, by decide, hmm.mem hb, by decide, hss.mem hb, hf.mem hb]

/-- A literal is cut between its date, its time of day and its offset. -/
theorem cut_of_texts {year month day h m s us : ℕ} (hdate : DateText date year month day)
    (hsep : sep = 32 ∨ sep = 84 ∨ sep = 116) (hclock : ClockText clock h m s us)
    (hzone : zone = [] ∨ ∃ c t, zone = c :: t ∧ (c = 43 ∨ c = 45 ∨ c = 90 ∨ c = 122)) :
    Cut (date ++ sep :: clock ++ zone) date sep clock zone := by
  refine ⟨by simp, fun b hb => ?_, hsep, fun b hb => ?_, hzone⟩
  · have hrange := hdate.mem hb
    omega
  · -- a time of day has no sign
    have hrange := hclock.mem hb
    omega

theorem ZoneText.start {offset : ℤ} (h : ZoneText zone offset) :
    zone = [] ∨ ∃ c t, zone = c :: t ∧ (c = 43 ∨ c = 45 ∨ c = 90 ∨ c = 122) := by
  rcases h with _ | hc | ⟨hc, -⟩
  · exact .inl rfl
  · exact .inr ⟨_, _, rfl, .inr (.inr hc)⟩
  · refine .inr ⟨_, _, rfl, ?_⟩
    cases hc
    exacts [.inl rfl, .inr (.inl rfl)]

end

section

variable {input : Bytes} {v : ℤ}

theorem parseParts_ok {typeName : String} {date clock zone : Bytes}
    (hcut : zone = [] ∨ isCharBoundary zone 1 = true)
    (h : parseParts typeName input date clock zone = .ok v) :
    ∃ year month day hh mm ss us offset, DateText date year month day ∧
      ClockText clock hh mm ss us ∧ ZoneText zone offset ∧
      FitsI64 (localMicros year month day hh mm ss us) ∧ FitsI64 v ∧
      v = localMicros year month day hh mm ss us - offset * 10 ^ 6 := by
  rcases parseParts_cases typeName input date clock zone with
    ⟨e, he⟩ | ⟨year, month, day, hh, mm, ss, us, hdate, hyear, hclock⟩
  · cases he.symm.trans h
  · obtain ⟨e, he⟩ := parseParts_of_texts hdate hyear hclock typeName input zone
    rw [he] at h
    obtain ⟨offset, hzone, h⟩ := exists_of_bind_ok h
    cases offset with
    | none => cases h
    | some offset =>
      rw [Option.elim_some, instantOf_eq hdate.isDay] at h
      split_ifs at h with hfits
      cases h
      exact ⟨year, month, day, hh, mm, ss, us, offset, hdate, hclock, (parseZone_iff hcut).1 hzone,
        hfits.1, hfits.2, rfl⟩

theorem parseParts_panic_iff {typeName : String} {date clock zone : Bytes} :
    parseParts typeName input date clock zone = .error .panic ↔ parseZone zone = .error .panic ∧
      ∃ year month day hh mm ss us, DateText date year month day ∧ year < 2 ^ 63 ∧
        ClockText clock hh mm ss us := by
  constructor
  · intro h
    rcases parseParts_cases typeName input date clock zone with
      ⟨e, he⟩ | ⟨year, month, day, hh, mm, ss, us, hdate, hyear, hclock⟩
    · cases he.symm.trans h
    · refine ⟨?_, year, month, day, hh, mm, ss, us, hdate, hyear, hclock⟩
      obtain ⟨e, he⟩ := parseParts_of_texts hdate hyear hclock typeName input zone
      rw [he] at h
      rcases parseZone_cases zone with hp | ⟨offset, hoff⟩
      · exact hp
      · rw [hoff] at h
        change offset.elim _ _ = _ at h
        cases offset with
        | none => cases h
        | some offset =>
          rw [Option.elim_some, instantOf_eq hdate.isDay] at h
          split_ifs at h
          cases h
  · rintro ⟨hp, year, month, day, hh, mm, ss, us, hdate, hyear, hclock⟩
    obtain ⟨e, he⟩ := parseParts_of_texts hdate hyear hclock typeName input zone
    rw [he, hp]
    rfl

/-- **A timestamp literal is accepted exactly if it names a time that fits.** -/
theorem parseTimestamp_ok_iff (hvalid : validUtf8 input) :
    parseTimestamp input = .ok v ↔ (∃ year, LocalText (trim input) year v) ∧ FitsI64 v := by
  constructor
  · intro h
    rcases exists_cut input "timestamp" false with ⟨e, he⟩ | ⟨date, sep, clock, zone, hc⟩
    · cases he.symm.trans h
    · obtain ⟨e, he⟩ := parseInstant_of_cut hc hvalid "timestamp" false
      rw [parseTimestamp, he] at h
      split_ifs at h with hzone
      have hnil : zone = [] := by simpa using hzone
      subst hnil
      obtain ⟨year, month, day, hh, mm, ss, us, offset, hdate, hclock, hz, -, hfits, rfl⟩ :=
        parseParts_ok (.inl rfl) h
      cases hz
      rw [Int.zero_mul, Int.sub_zero] at hfits ⊢
      refine ⟨⟨year, ?_⟩, hfits⟩
      rw [hc.eq, List.append_nil]
      exact .mk hdate hc.sep hclock
  · rintro ⟨⟨year, ht⟩, hfits⟩
    generalize htext : trim input = text at ht
    obtain ⟨hdate, hsep, hclock⟩ := ht
    have hc := cut_of_texts hdate hsep hclock (.inl rfl)
    rw [List.append_nil, ← htext] at hc
    obtain ⟨e, he⟩ := parseInstant_of_cut hc hvalid "timestamp" false
    obtain ⟨e', he'⟩ := parseParts_eq hdate hclock ((parseZone_iff (.inl rfl)).2 .absent)
    rw [Int.zero_mul, Int.sub_zero] at he'
    rw [parseTimestamp, he, if_neg (by simp), he', if_pos ⟨hfits, hfits⟩]

theorem parseTimestamp_no_panic (hvalid : validUtf8 input) :
    parseTimestamp input ≠ .error .panic := by
  intro h
  rcases exists_cut input "timestamp" false with ⟨e, he⟩ | ⟨date, sep, clock, zone, hc⟩
  · cases he.symm.trans h
  · obtain ⟨e, he⟩ := parseInstant_of_cut hc hvalid "timestamp" false
    rw [parseTimestamp, he] at h
    split_ifs at h with hzone
    · cases h
    · have hnil : zone = [] := by simpa using hzone
      subst hnil
      cases (parseParts_panic_iff.1 h).1

/-- What is accepted is the instant that the literal names. -/
theorem parseTimestamptz_ok (hvalid : validUtf8 input) (h : parseTimestamptz input = .ok v) :
    ∃ localUs, InstantText (trim input) localUs v ∧ FitsI64 localUs ∧ FitsI64 v := by
  rcases exists_cut input "timestamp with time zone" true with
    ⟨e, he⟩ | ⟨date, sep, clock, zone, hc⟩
  · cases he.symm.trans h
  · obtain ⟨e, he⟩ := parseInstant_of_cut hc hvalid "timestamp with time zone" true
    rw [parseTimestamptz, he, if_neg (by simp)] at h
    obtain ⟨year, month, day, hh, mm, ss, us, offset, hdate, hclock, hz, hlocal, hfits, rfl⟩ :=
      parseParts_ok (hc.boundary hvalid).2 h
    refine ⟨_, ?_, hlocal, hfits⟩
    have htext := hc.eq
    rw [← List.cons_append, ← List.append_assoc] at htext
    rw [htext]
    exact .mk (.mk hdate hc.sep hclock) hz

/-- A literal is accepted if the instant and the local time both fit. -/
theorem parseTimestamptz_of_text (hvalid : validUtf8 input) {localUs utc : ℤ}
    (h : InstantText (trim input) localUs utc) :
    ∃ e, parseTimestamptz input =
      if FitsI64 localUs ∧ FitsI64 utc then .ok utc else .error (.refused e) := by
  generalize htext : trim input = text at h
  obtain ⟨⟨hdate, hsep, hclock⟩, hz⟩ := h
  have hc := cut_of_texts hdate hsep hclock hz.start
  rw [← htext] at hc
  obtain ⟨e, he⟩ := parseInstant_of_cut hc hvalid "timestamp with time zone" true
  rw [parseTimestamptz, he, if_neg (by simp)]
  exact parseParts_eq hdate hclock ((parseZone_iff (hc.boundary hvalid).2).2 hz)

/-- **Where the process stops.** -/
theorem parseTimestamptz_panic_iff (hvalid : validUtf8 input) :
    parseTimestamptz input = .error .panic ↔ StraddledText (trim input) := by
  constructor
  · intro h
    rcases exists_cut input "timestamp with time zone" true with
      ⟨e, he⟩ | ⟨date, sep, clock, zone, hc⟩
    · cases he.symm.trans h
    · obtain ⟨e, he⟩ := parseInstant_of_cut hc hvalid "timestamp with time zone" true
      rw [parseTimestamptz, he, if_neg (by simp)] at h
      obtain ⟨hz, year, month, day, hh, mm, ss, us, hdate, hyear, hclock⟩ :=
        parseParts_panic_iff.1 h
      obtain ⟨c, sign, rest, rfl, hsign, hcolon, hlen, hmid⟩ :=
        (parseZone_panic_iff (hc.boundary hvalid).2).1 hz
      have htext := hc.eq
      rw [← List.cons_append, ← List.append_assoc] at htext
      rw [htext]
      exact .mk (.mk hdate hc.sep hclock) hyear hsign hcolon hlen hmid
  · intro h
    generalize htext : trim input = text at h
    obtain @⟨t, rest, c, year, localUs, sign, ht, hyear, hsign, hcolon, hlen, hmid⟩ := h
    obtain ⟨hdate, hsep, hclock⟩ := ht
    have hstart : ∀ {c : Fin 256} {sign : ℤ}, SignText c sign →
        c = 43 ∨ c = 45 ∨ c = 90 ∨ c = 122 := by
      rintro _ _ (_ | _)
      exacts [.inl rfl, .inr (.inl rfl)]
    have hc := cut_of_texts hdate hsep hclock (.inr ⟨c, rest, rfl, hstart hsign⟩)
    rw [← htext] at hc
    obtain ⟨e, he⟩ := parseInstant_of_cut hc hvalid "timestamp with time zone" true
    rw [parseTimestamptz, he, if_neg (by simp), parseParts_panic_iff]
    exact ⟨(parseZone_panic_iff (hc.boundary hvalid).2).2 ⟨_, _, _, rfl, hsign, hcolon, hlen, hmid⟩,
      _, _, _, _, _, _, _, hdate, hyear, hclock⟩

end

/-- The parsers read the civil times that a text names: the days or microseconds since
1970-01-01 UTC if these fit, and the same for all literals of an instant. -/
structure ReadsCivilTime (text : Bytes) : Prop where
  date : Reads parseDate (fun v => (∃ year month day, DateText (trim text) year month day ∧
    v = epochDay year month day) ∧ FitsI32 v) text
  timestamp : Reads parseTimestamp
    (fun v => (∃ year, LocalText (trim text) year v) ∧ FitsI64 v) text
  timestamptz : Reads parseTimestamptz
    (fun v => (∃ localUs, InstantText (trim text) localUs v) ∧ FitsI64 v) text
  same_instant : ∀ text' localUs localUs' utc v, validUtf8 text' →
    InstantText (trim text) localUs utc → InstantText (trim text') localUs' utc →
      parseTimestamptz text' = .ok v → parseTimestamptz text = .ok v

/-- **Civil times are read exactly, but for an offset cut inside a character and for a local time
that does not fit though its instant does.** -/
theorem readsCivilTime_iff {text : Bytes} (h : validUtf8 text) :
    ReadsCivilTime text ↔ ¬StraddledText (trim text) ∧
      ¬∃ localUs utc, InstantText (trim text) localUs utc ∧ FitsI64 utc ∧ ¬FitsI64 localUs := by
  constructor
  · rintro ⟨-, -, hz, -⟩
    refine ⟨fun hs => hz.no_panic ((parseTimestamptz_panic_iff h).2 hs), ?_⟩
    rintro ⟨localUs, utc, ht, hutc, hlocal⟩
    obtain ⟨e, he⟩ := parseTimestamptz_of_text h ht
    rw [if_neg fun hfits => hlocal hfits.1] at he
    cases he.symm.trans ((hz.ok_iff utc).2 ⟨⟨localUs, ht⟩, hutc⟩)
  · rintro ⟨hs, hlocal⟩
    have hread : ∀ localUs utc, InstantText (trim text) localUs utc → FitsI64 utc →
        parseTimestamptz text = .ok utc := by
      intro localUs utc ht hutc
      obtain ⟨e, he⟩ := parseTimestamptz_of_text h ht
      rwa [if_pos ⟨by_contra fun hl => hlocal ⟨localUs, utc, ht, hutc, hl⟩, hutc⟩] at he
    refine ⟨Reads.of (parseDate_no_panic text) fun v => ?_,
      Reads.of (parseTimestamp_no_panic h) fun v => parseTimestamp_ok_iff h,
      Reads.of (fun hp => hs ((parseTimestamptz_panic_iff h).1 hp)) fun v => ⟨fun hv => ?_, ?_⟩, ?_⟩
    · rw [parseDate_ok_iff]
      constructor
      · rintro ⟨year, month, day, ht, hv, hfits⟩
        exact ⟨⟨year, month, day, ht, hv⟩, hfits⟩
      · rintro ⟨⟨year, month, day, ht, hv⟩, hfits⟩
        exact ⟨year, month, day, ht, hv, hfits⟩
    · obtain ⟨localUs, ht, -, hfits⟩ := parseTimestamptz_ok h hv
      exact ⟨⟨localUs, ht⟩, hfits⟩
    · rintro ⟨⟨localUs, ht⟩, hfits⟩
      exact hread localUs v ht hfits
    · -- the other literal is accepted, so the instant fits
      intro text' localUs localUs' utc v hvalid ht ht' hv
      obtain ⟨e, he⟩ := parseTimestamptz_of_text hvalid ht'
      rw [hv] at he
      split_ifs at he with hfits
      cases he
      exact hread localUs _ ht hfits.2

theorem readsCivilTime_sample : validUtf8 (ascii "2024-01-15 12:00:00+05") ∧
    (ReadsCivilTime (ascii "2024-01-15 12:00:00+05") ↔
      ¬StraddledText (trim (ascii "2024-01-15 12:00:00+05")) ∧
        ¬∃ localUs utc, InstantText (trim (ascii "2024-01-15 12:00:00+05")) localUs utc ∧
          FitsI64 utc ∧ ¬FitsI64 localUs) := by
  have hvalid : validUtf8 (ascii "2024-01-15 12:00:00+05") := by decide
  exact ⟨hvalid, readsCivilTime_iff hvalid⟩

/-- An offset of two digits with an accented letter between them stops the process. -/
theorem civilTime_not_read : ¬∀ text, validUtf8 text → ReadsCivilTime text := by
  intro hall
  have hvalid : validUtf8 (ascii "2024-01-15 12:00:00+1" ++ [0xC3, 0xA9] ++ ascii "1") := by
    decide
  have hpanic : parseTimestamptz (ascii "2024-01-15 12:00:00+1" ++ [0xC3, 0xA9] ++ ascii "1") =
      .error .panic := by decide +kernel
  exact (hall _ hvalid).timestamptz.no_panic hpanic

end Datetime

end SteleDb
