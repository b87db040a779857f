import SteleDb.Exec.TextFold

/-!
# Values as text

What a client is shown: each value in the text that PostgreSQL writes for its type.  Days are turned
into civil dates by eras of 400 years; years before the first are counted backwards, with `BC`.  The
arithmetic is that of 64-bit integers, and a result that does not fit stops the process.

* `civilFromDays_eq`, `exists_civil` : the conversion does not overflow and names the day;
* `encodeText_read_back` : every value is shown, and read back unless it is before the year 1.
-/

namespace SteleDb

/-! ### Civil dates -/

/-- A result of 64-bit arithmetic. -/
def checkedI64 (x : ℤ) : Option ℤ := if FitsI64 x then some x else none

/-- The year, month and day of a number of days since 1970-01-01. -/
def civilFromDays (days : ℤ) : Option (ℤ × ℤ × ℤ) := do
  let z ← checkedI64 (days + 719468)
  let start ← (if 0 ≤ z then some z else checkedI64 (z - 146096))
  let era := start.tdiv 146097
  let eraDays ← checkedI64 (era * 146097)
  let doe ← checkedI64 (z - eraDays)
  let leap ← checkedI64 (doe - doe.tdiv 1460)
  let leap ← checkedI64 (leap + doe.tdiv 36524)
  let leap ← checkedI64 (leap - doe.tdiv 146096)
  let yoe := leap.tdiv 365
  let eraYears ← checkedI64 (era * 400)
  let year ← checkedI64 (yoe + eraYears)
  let yearDays ← checkedI64 (365 * yoe)
  let yearDays ← checkedI64 (yearDays + yoe.tdiv 4)
  let yearDays ← checkedI64 (yearDays - yoe.tdiv 100)
  let doy ← checkedI64 (doe - yearDays)
  let months ← checkedI64 (5 * doy)
  let months ← checkedI64 (months + 2)
  let mp := months.tdiv 153
  let monthDays ← checkedI64 (153 * mp)
  let monthDays ← checkedI64 (monthDays + 2)
  let day ← checkedI64 (doy - monthDays.tdiv 5)
  let day ← checkedI64 (day + 1)
  let month ← (if mp < 10 then checkedI64 (mp + 3) else checkedI64 (mp - 9))
  let year ← checkedI64 (year + if month ≤ 2 then 1 else 0)
  return (year, month, day)

/-- The year that is shown, and the suffix of its era. -/
def pgYear (year : ℤ) : Option (ℤ × Bytes) :=
  if year ≤ 0 then (checkedI64 (1 - year)).map fun y => (y, ascii " BC") else some (year, [])

/-- `YYYY-MM-DD`, the year positive. -/
def dateText (year month day : ℤ) : Bytes :=
  padded 4 year.toNat ++ 45 :: (padded 2 month.toNat ++ 45 :: padded 2 day.toNat)

/-- A `date`. -/
def formatDate (days : ℤ) : Option Bytes := do
  let (year, month, day) ← civilFromDays days
  let (y, suffix) ← pgYear year
  return dateText y month day ++ suffix

/-- `HH:MM:SS`, and the digits of a fraction without the zeros at its end. -/
def timeText (tod : ℤ) : Bytes :=
  let secs := tod / Datetime.microsPerSec
  let frac := tod % Datetime.microsPerSec
  padded 2 (secs / 3600).toNat ++
    58 :: (padded 2 (secs % 3600 / 60).toNat ++ 58 :: padded 2 (secs % 60).toNat) ++
      if frac ≠ 0 then 46 :: trimRight (padded 6 frac.toNat) else []

/-- A `timestamp`. -/
def formatTimestamp (micros : ℤ) : Option Bytes := do
  let days := micros / Datetime.microsPerDay
  let tod := micros % Datetime.microsPerDay
  let (year, month, day) ← civilFromDays days
  let (y, suffix) ← pgYear year
  return dateText y month day ++ 32 :: timeText tod ++ suffix

/-- A `timestamptz`: the offset stands before the suffix of the era. -/
def formatTimestamptz (micros : ℤ) : Option Bytes := do
  let base ← formatTimestamp micros
  if (ascii " BC").isSuffixOf base then
    return base.take (base.length - 3) ++ ascii "+00 BC"
  else return base ++ ascii "+00"

/-- A `period`. -/
def formatPeriod (start stop : ℤ) : Option Bytes := do
  let lower ← formatTimestamp start
  if stop = i64Max then return ascii "[\"" ++ lower ++ ascii "\",)"
  else
    let upper ← formatTimestamp stop
    return ascii "[\"" ++ lower ++ ascii "\",\"" ++ upper ++ ascii "\")"

/-! ### Other values -/

/-- A `float8` of its bits, a finite one as `f64::to_string` has it. -/
def formatFloat8 (display : ℕ → Bytes) (bits : ℕ) : Bytes :=
  if bits / 2 ^ 52 % 2 ^ 11 = 2 ^ 11 - 1 then
    if bits % 2 ^ 52 ≠ 0 then ascii "NaN"
    else if bits / 2 ^ 63 = 1 then ascii "-Infinity"
    else ascii "Infinity"
  else display bits

/-- A hexadecimal digit. -/
def hexDigit (n : ℕ) : Fin 256 := if n < 10 then Fin.ofNat 256 (48 + n) else Fin.ofNat 256 (87 + n)

/-- A byte as two digits. -/
def pushHex (byte : Fin 256) : Bytes := [hexDigit (byte.val / 16), hexDigit (byte.val % 16)]

/-- A UUID, hyphens after bytes 4, 6, 8 and 10. -/
def formatUuid (raw : Bytes) : Bytes :=
  raw.zipIdx.flatMap fun (byte, i) => (if i ∈ [4, 6, 8, 10] then [45] else []) ++ pushHex byte

/-- Bytes. -/
def formatBytea (raw : Bytes) : Bytes := 92 :: 120 :: raw.flatMap pushHex

/-- The text of a value. -/
def encodeText (display : ℕ → Bytes) : ScalarValue → Option Bytes
  | .int4 v | .int8 v => some (intText v)
  | .text s => some s
  | .bool b => some (if b then ascii "t" else ascii "f")
  | .timestamp micros => formatTimestamp micros
  | .timestampTz micros => formatTimestamptz micros
  | .date days => formatDate days
  | .uuid raw => some (formatUuid raw)
  | .bytea raw => some (formatBytea raw)
  | .period start stop => formatPeriod start stop
  | .float8 bits => some (formatFloat8 display bits)

/-! ### The conversion of days -/

theorem checkedI64_of_small {x : ℤ} (h : -2 ^ 62 ≤ x) (h' : x ≤ 2 ^ 62) :
    checkedI64 x = some x := by
  refine if_pos ⟨?_, ?_⟩
  · rw [i64Min]
    omega
  · rw [i64Max]
    omega

theorem bind_checked {α : Type*} {x y : ℤ} {f : ℤ → Option α} {r : α} (h : x = y)
    (hy : -2 ^ 62 ≤ y) (hy' : y ≤ 2 ^ 62) (hf : f y = some r) : (checkedI64 x).bind f = some r := by
  rw [h, checkedI64_of_small hy hy', Option.bind_some, hf]

/-- The fields of a day since 0000-03-01, by quotients that are rounded down. -/
structure Civil (z year month day : ℤ) : Prop where
  fields : ∃ doe yoe doy mp, doe = z - z / 146097 * 146097 ∧
    yoe = (doe - doe / 1460 + doe / 36524 - doe / 146096) / 365 ∧
    doy = doe - (365 * yoe + yoe / 4 - yoe / 100) ∧ mp = (5 * doy + 2) / 153 ∧
    day = doy - (153 * mp + 2) / 5 + 1 ∧ month = (if mp < 10 then mp + 3 else mp - 9) ∧
    year = yoe + z / 146097 * 400 + if month ≤ 2 then 1 else 0

/-- **The conversion does not overflow.** -/
theorem civilFromDays_eq {days : ℤ} (h : -2 ^ 40 ≤ days) (h' : days ≤ 2 ^ 40) :
    ∃ year month day, civilFromDays days = some (year, month, day) ∧
      Civil (days + 719468) year month day := by
  obtain ⟨z, hz⟩ : ∃ z, z = days + 719468 := ⟨_, rfl⟩
  have hzb : -2 ^ 41 ≤ z ∧ z ≤ 2 ^ 41 := by omega
  obtain ⟨era, hera⟩ : ∃ era, era = z / 146097 := ⟨_, rfl⟩
  -- the quotient rounds towards zero, which is down from where it starts
  have hera' : ∃ s, (if 0 ≤ z then some z else checkedI64 (z - 146096)) = some s ∧
      s.tdiv 146097 = era := by
    by_cases h0 : 0 ≤ z
    · exact ⟨z, if_pos h0, by rw [Int.tdiv_eq_ediv_of_nonneg h0, hera]⟩
    · refine ⟨z - 146096, ?_, ?_⟩
      · rw [if_neg h0]
        exact checkedI64_of_small (by omega) (by omega)
      · rw [← neg_neg (z - 146096), Int.neg_tdiv, Int.tdiv_eq_ediv_of_nonneg (by omega)]
        omega
  obtain ⟨s, hs, hdiv⟩ := hera'
  obtain ⟨doe, hdoe⟩ : ∃ doe, doe = z - era * 146097 := ⟨_, rfl⟩
  have hdoeb : 0 ≤ doe ∧ doe ≤ 146096 := by omega
  have herab : -2 ^ 41 ≤ era ∧ era ≤ 2 ^ 41 := by omega
  obtain ⟨yoe, hyoe⟩ : ∃ yoe, yoe = (doe - doe / 1460 + doe / 36524 - doe / 146096) / 365 :=
    ⟨_, rfl⟩
  obtain ⟨a, b, c, d, hin⟩ := exists_inEra hdoeb.1 hdoeb.2
  obtain ⟨hyoe0, hyoe399, h4, h100, hd⟩ := hin.fields (hyoe.trans hin.yearOfEra)
  have h400 : yoe / 4 - yoe / 100 ≤ 100 ∧ 0 ≤ yoe / 4 - yoe / 100 := by omega
  obtain ⟨doy, hdoy⟩ : ∃ doy, doy = doe - (365 * yoe + yoe / 4 - yoe / 100) := ⟨_, rfl⟩
  have hdoyb : 0 ≤ doy ∧ doy ≤ 365 := by
    have hday := hin.day
    have hlast := hin.last
    omega
  obtain ⟨mp, hmp⟩ : ∃ mp, mp = (5 * doy + 2) / 153 := ⟨_, rfl⟩
  have hmpb : 0 ≤ mp ∧ mp ≤ 11 := by omega
  obtain ⟨month, hmonth⟩ : ∃ month, month = if mp < 10 then mp + 3 else mp - 9 := ⟨_, rfl⟩
  have hmonth' : (if mp < 10 then checkedI64 (mp + 3) else checkedI64 (mp - 9)) = some month := by
    rw [hmonth]
    split_ifs <;> exact checkedI64_of_small (by omega) (by omega)
  have hleap : (doe - doe / 1460 + doe / 36524 - doe / 146096).tdiv 365 = yoe := by
    rw [Int.tdiv_eq_ediv_of_nonneg (by omega), hyoe]
  have hmp' : (5 * doy + 2).tdiv 153 = mp := by
    rw [Int.tdiv_eq_ediv_of_nonneg (by omega), hmp]
  have hone : ∃ e, (if month ≤ 2 then 1 else 0) = e ∧ (0 : ℤ) ≤ e ∧ e ≤ 1 := by
    split_ifs <;> exact ⟨_, rfl, by omega, by omega⟩
  obtain ⟨e, he, he0, he1⟩ := hone
  refine ⟨yoe + era * 400 + e, month, doy - (153 * mp + 2) / 5 + 1, ?_,
    ⟨doe, yoe, doy, mp, ?_, hyoe, hdoy, hmp, rfl, hmonth, ?_⟩⟩
  · have h1460 := Int.tdiv_eq_ediv_of_nonneg hdoeb.1 (b := 1460)
    have h36524 := Int.tdiv_eq_ediv_of_nonneg hdoeb.1 (b := 36524)
    have h146096 := Int.tdiv_eq_ediv_of_nonneg hdoeb.1 (b := 146096)
    have h4' := Int.tdiv_eq_ediv_of_nonneg hyoe0 (b := 4)
    have h100' := Int.tdiv_eq_ediv_of_nonneg hyoe0 (b := 100)
    have h5 := Int.tdiv_eq_ediv_of_nonneg (by omega : 0 ≤ 153 * mp + 2) (b := 5)
    clear hera hyoe hmp hmonth hin hd h4 h100
    refine bind_checked (y := z) hz.symm (by omega) (by omega) ?_
    refine Option.bind_eq_some_iff.2 ⟨s, hs, ?_⟩
    refine bind_checked (y := era * 146097) (by rw [hdiv]) (by omega) (by omega) ?_
    refine bind_checked (y := doe) hdoe.symm (by omega) (by omega) ?_
    refine bind_checked (y := doe - doe / 1460) (by rw [h1460]) (by omega) (by omega) ?_
    refine bind_checked (y := doe - doe / 1460 + doe / 36524) (by rw [h36524]) (by omega)
      (by omega) ?_
    refine bind_checked (y := doe - doe / 1460 + doe / 36524 - doe / 146096) (by rw [h146096])
      (by omega) (by omega) ?_
    refine bind_checked (y := era * 400) (by rw [hdiv]) (by omega) (by omega) ?_
    refine bind_checked (y := yoe + era * 400) (by rw [hleap]) (by omega) (by omega) ?_
    refine bind_checked (y := 365 * yoe) (by rw [hleap]) (by omega) (by omega) ?_
    refine bind_checked (y := 365 * yoe + yoe / 4) (by rw [hleap, h4']) (by omega) (by omega) ?_
    refine bind_checked (y := 365 * yoe + yoe / 4 - yoe / 100) (by rw [hleap, h100']) (by omega)
      (by omega) ?_
    refine bind_checked (y := doy) hdoy.symm (by omega) (by omega) ?_
    refine bind_checked (y := 5 * doy) rfl (by omega) (by omega) ?_
    refine bind_checked (y := 5 * doy + 2) rfl (by omega) (by omega) ?_
    refine bind_checked (y := 153 * mp) (by rw [hmp']) (by omega) (by omega) ?_
    refine bind_checked (y := 153 * mp + 2) rfl (by omega) (by omega) ?_
    refine bind_checked (y := doy - (153 * mp + 2) / 5) (by rw [h5]) (by omega) (by omega) ?_
    refine bind_checked (y := doy - (153 * mp + 2) / 5 + 1) rfl (by omega) (by omega) ?_
    refine Option.bind_eq_some_iff.2 ⟨month, by rw [hmp']; exact hmonth', ?_⟩
    exact bind_checked (y := yoe + era * 400 + e) (by rw [he]) (by omega) (by omega) rfl
  · rw [← hz, ← hera, hdoe]
  · rw [← hz, ← hera, he]

/-! ### Days and what is shown of them -/

theorem epochDay_one : Datetime.epochDay 1 1 1 = -719162 := by
  rw [Datetime.epochDay_eq, era_days (by norm_num) (by norm_num) (by norm_num) rfl]
  norm_num

/-- The days of the year 0 are those before the year 1. -/
theorem dayNumber_year {year month day : ℕ} (h : IsDay year month day) :
    year = 0 ∧ dayNumber year month day < 366 ∨ 1 ≤ year ∧ 366 ≤ dayNumber year month day := by
  by_cases hyear : year = 0
  · subst hyear
    have hm := h.month_le
    have hm' := h.month_pos
    have hd := h.day_le.trans (daysInMonth_le 0 month)
    have hfeb : daysInMonth 0 2 = 29 := rfl
    refine .inl ⟨rfl, ?_⟩
    rw [dayNumber, sum_daysInMonth hm' hm, hfeb, Finset.range_zero, Finset.sum_empty]
    split_ifs <;> omega
  · have hzero : daysInYear 0 = 366 := by rw [daysInYear_eq]; rfl
    have hle := Finset.single_le_sum (f := daysInYear) (fun _ _ => Nat.zero_le _)
      (Finset.mem_range.2 (Nat.pos_of_ne_zero hyear))
    refine .inr ⟨by omega, ?_⟩
    rw [dayNumber]
    omega

/-- **A day is shown as it is named, and as one before Christ if it is before the year 1.** -/
theorem exists_civil {days : ℤ} (h : -2 ^ 40 ≤ days) (h' : days ≤ 2 ^ 40) :
    ∃ year month day y suffix, civilFromDays days = some (year, month, day) ∧
      pgYear year = some (y, suffix) ∧
      (days < Datetime.epochDay 1 1 1 ∧ suffix = ascii " BC" ∨
        Datetime.epochDay 1 1 1 ≤ days ∧ suffix = [] ∧ ∃ yn m d : ℕ, y = yn ∧ month = m ∧ day = d ∧
          IsDay yn m d ∧ Datetime.epochDay yn m d = days) := by
  obtain ⟨year, month, day, hcivil,
    ⟨doe, yoe, doy, mp, hdoe, hyoe, hdoy, hmp, hday, hmonth, hyear⟩⟩ :=
    civilFromDays_eq h h'
  rw [epochDay_one]
  -- a year that is not positive is counted backwards
  have hbc : year ≤ 0 → -2 ^ 61 ≤ year → pgYear year = some (1 - year, ascii " BC") := by
    intro hle hlow
    rw [pgYear, if_pos hle, checkedI64_of_small (by omega) (by omega)]
    rfl
  by_cases hz : 0 ≤ days + 719468
  · obtain ⟨yn, m, d, hday', hnum, hd, hm, hy⟩ := civil_of_dayNumber hz hdoe hyoe hdoy hmp
    have hmeq : month = m := hmonth.trans hm.symm
    have hyeq : year = yn := by
      rw [hyear, hy, hmeq]
      norm_num
    have hdeq : day = d := hday.trans hd.symm
    -- what is left is about the count of the day, not about its fields
    clear hd hm hy hday hmonth hyear hdoe hyoe hdoy hmp
    have hepoch : Datetime.epochDay yn m d = days := by
      rw [Datetime.epochDay_eq, hnum]
      omega
    rcases dayNumber_year hday' with ⟨hzero, hlt⟩ | ⟨hpos, hge⟩
    · refine ⟨year, month, day, _, _, hcivil, hbc (by omega) (by omega), .inl ⟨by omega, rfl⟩⟩
    · refine ⟨year, month, day, year, [], hcivil, if_neg (by omega), .inr ⟨by omega, rfl, yn, m, d,
        hyeq, hmeq, hdeq, hday', hepoch⟩⟩
  · have hdoeb : 0 ≤ doe ∧ doe ≤ 146096 := by omega
    obtain ⟨a, b, c, e, hin⟩ := exists_inEra hdoeb.1 hdoeb.2
    obtain ⟨hyoe0, hyoe399, -, -, -⟩ := hin.fields (hyoe.trans hin.yearOfEra)
    have hbounds : year ≤ 0 ∧ -2 ^ 61 ≤ year := by
      clear hyoe hdoy hmp hday hmonth hdoe
      split_ifs at hyear <;> omega
    exact ⟨year, month, day, _, _, hcivil, hbc hbounds.1 hbounds.2,
      .inl ⟨by clear hyear hyoe hdoy hmp hday hmonth hdoe; omega, rfl⟩⟩

/-! ### Texts of dates and times -/

theorem head_dateText (year month day : ℤ) (rest : Bytes) :
    ∃ b, (dateText year month day ++ rest).head? = some b ∧ 0x20 < b ∧ b < 0x80 := by
  obtain ⟨b, t, hb⟩ :=
    List.exists_cons_of_ne_nil (allDigits_iff.1 (allDigits_padded 4 year.toNat)).1
  have hmem : b ∈ padded 4 year.toNat := by
    rw [hb]
    exact List.mem_cons_self
  have hrange := mem_padded hmem
  refine ⟨b, ?_, by omega, by omega⟩
  rw [dateText, hb]
  rfl

theorem mem_dateText {year month day : ℤ} {b : Fin 256} (h : b ∈ dateText year month day) :
    45 ≤ b ∧ b ≤ 57 := by
  simp only [dateText, List.mem_append, List.mem_cons] at h
  rcases h with h | rfl | h | rfl | h
  · have hrange := mem_padded h
    omega
  · decide
  · have hrange := mem_padded h
    omega
  · decide
  · have hrange := mem_padded h
    omega

theorem mem_timeText {tod : ℤ} {b : Fin 256} (h : b ∈ timeText tod) : 46 ≤ b ∧ b ≤ 58 := by
  have hdigits : ∀ {width n : ℕ}, b ∈ padded width n → 46 ≤ b ∧ b ≤ 58 := by
    intro width n hb
    have hrange := mem_padded hb
    omega
  simp only [timeText, List.mem_append, List.mem_cons] at h
  rcases h with (h | rfl | h | rfl | h) | h
  · exact hdigits h
  · decide
  · exact hdigits h
  · decide
  · exact hdigits h
  · split_ifs at h
    · rcases List.mem_cons.1 h with rfl | h
      · decide
      · exact hdigits (mem_of_mem_trimRight h)
    · cases h

theorem dateText_isDay {year month day : ℕ} (h : IsDay year month day) :
    Datetime.DateText (dateText year month day) year month day := by
  have hmk := Datetime.DateText.mk (allDigits_padded 4 year) (le_length_padded 4 year)
    (allDigits_padded 2 month) (allDigits_padded 2 day)
    (by rwa [digitsValue_padded, digitsValue_padded, digitsValue_padded])
  rwa [digitsValue_padded, digitsValue_padded, digitsValue_padded] at hmk

theorem field_padded {n bound : ℕ} (h : n ≤ bound) (hb : bound < 100) :
    Datetime.Field (padded 2 n) n bound :=
  ⟨length_padded (by decide) (by omega), allDigits_padded 2 n, digitsValue_padded 2 n, h⟩

/-- The digits of a fraction are read back without the zeros at their end. -/
theorem fractionText_trimRight {frac : ℕ} (h : frac ≠ 0) (h' : frac < 10 ^ 6) :
    Datetime.FractionText (46 :: trimRight (padded 6 frac)) frac := by
  have hnonzero : ∃ b ∈ padded 6 frac, b ≠ 48 := by
    by_contra hall
    push Not at hall
    have hzeros := List.eq_replicate_of_mem hall
    have hvalue := digitsValue_padded 6 frac
    rw [hzeros, digitsValue_replicate] at hvalue
    exact h hvalue.symm
  obtain ⟨b, hb, hne⟩ := hnonzero
  have hdigits : allDigits (trimRight (padded 6 frac)) = true :=
    allDigits_iff.2 ⟨trimRight_ne_nil hb hne, fun c hc => mem_padded (mem_of_mem_trimRight hc)⟩
  have hlen := length_padded (by decide : 0 < 6) h'
  have hle : (trimRight (padded 6 frac)).length ≤ 6 := by
    obtain ⟨k, hk⟩ := trimRight_append (padded 6 frac)
    rw [hk, List.length_append] at hlen
    omega
  have hvalue := digitsValue_fraction (allDigits_iff.1 hdigits).2 6
  rw [List.take_of_length_le hle, padRight_trimRight hlen, digitsValue_padded] at hvalue
  have hpoint := Datetime.FractionText.point hdigits
  rwa [← hvalue] at hpoint

/-- A time of day is shown as it is named. -/
theorem timeText_clock {tod : ℤ} (h : 0 ≤ tod) (h' : tod < Datetime.microsPerDay) :
    ∃ hh mm ss us : ℕ, Datetime.ClockText (timeText tod) hh mm ss us ∧
      ((hh : ℤ) * 3600 + mm * 60 + ss) * 10 ^ 6 + us = tod := by
  obtain ⟨n, rfl⟩ := Int.eq_ofNat_of_zero_le h
  have hsec : Datetime.microsPerSec = ((10 ^ 6 : ℕ) : ℤ) := rfl
  have hn : n < 86400 * 10 ^ 6 := by
    simp only [Datetime.microsPerDay, Datetime.microsPerSec] at h'
    omega
  refine ⟨n / 10 ^ 6 / 3600, n / 10 ^ 6 % 3600 / 60, n / 10 ^ 6 % 60, n % 10 ^ 6, ?_, by omega⟩
  have hfrac : Datetime.FractionText
      (if ((n % 10 ^ 6 : ℕ) : ℤ) ≠ 0 then 46 :: trimRight (padded 6 (n % 10 ^ 6)) else [])
      (n % 10 ^ 6) := by
    by_cases h0 : n % 10 ^ 6 = 0
    · rw [if_neg (not_not.2 (by exact_mod_cast h0)), h0]
      exact .none
    · rw [if_pos (by exact_mod_cast h0)]
      exact fractionText_trimRight h0 (by omega)
  have hhour : n / 10 ^ 6 / 3600 ≤ 23 := by omega
  have hminute : n / 10 ^ 6 % 3600 / 60 ≤ 59 := by omega
  have hsecond : n / 10 ^ 6 % 60 ≤ 59 := by omega
  have hmk := Datetime.ClockText.seconds (field_padded hhour (by decide))
    (field_padded hminute (by decide)) (field_padded hsecond (by decide)) hfrac
  exact hmk

theorem trim_text {text : Bytes} {a : Fin 256} (hhead : text.head? = some a)
    (ha : 0x20 < a ∧ a < 0x80) {l r : Bytes} (htext : text = l ++ r) (hne : r ≠ [])
    (hr : ∀ b ∈ r, 0x20 < b ∧ b < 0x80) : trim text = text := by
  refine trim_of_ends ha (hr _ (List.getLast_mem hne)) hhead ?_
  rw [htext, List.getLast?_append, List.getLast?_eq_some_getLast hne, Option.some_or]

/-! ### Values that are read back -/

theorem trim_intText (v : ℤ) : trim (intText v) = intText v := by
  have hdigits : ∀ b ∈ decimal v.natAbs, (0x20 : Fin 256) < b ∧ b < 0x80 := by
    intro b hb
    have hrange := mem_decimal hb
    omega
  have hne := decimal_ne_nil v.natAbs
  rw [intText]
  split_ifs with h
  · exact trim_text rfl (by decide) (l := [45]) rfl hne hdigits
  · obtain ⟨b, t, hb⟩ := List.exists_cons_of_ne_nil hne
    refine trim_text (a := b) (by rw [hb]; rfl) (hdigits b ?_) (l := []) rfl hne hdigits
    rw [hb]
    exact List.mem_cons_self

theorem hexVal_hexDigit {n : ℕ} (h : n < 16) : hexVal (hexDigit n) = some n ∧ hexDigit n ≠ 45 := by
  interval_cases n <;> exact ⟨rfl, by decide⟩

/-- The digits of bytes are read back. -/
theorem mapM_hexVal (raw : Bytes) :
    ∃ nibbles, (raw.flatMap pushHex).mapM hexVal = some nibbles ∧ nibbles.length = 2 * raw.length ∧
      bytesOfNibbles nibbles = raw := by
  induction raw with
  | nil => exact ⟨[], rfl, rfl, rfl⟩
  | cons b raw ih =>
    obtain ⟨nibbles, hmap, hlen, hbytes⟩ := ih
    have hhi := (hexVal_hexDigit (n := b.val / 16) (by omega)).1
    have hlo := (hexVal_hexDigit (n := b.val % 16) (by omega)).1
    refine ⟨b.val / 16 :: b.val % 16 :: nibbles, ?_, ?_, ?_⟩
    · rw [List.flatMap_cons, pushHex, List.cons_append, List.cons_append, List.nil_append,
        List.mapM_cons, List.mapM_cons, hhi, hlo, hmap]
      rfl
    · rw [List.length_cons, List.length_cons, List.length_cons, hlen]
      ring
    · have hbyte : Fin.ofNat 256 (b.val / 16 * 16 + b.val % 16) = b := by
        rw [Nat.div_add_mod']
        exact Fin.ofNat_val_eq_self b
      rw [bytesOfNibbles, hbyte, hbytes]

theorem parseBytea_formatBytea (raw : Bytes) : parseBytea (formatBytea raw) = some raw := by
  obtain ⟨nibbles, hmap, hlen, hbytes⟩ := mapM_hexVal raw
  have heven : (raw.flatMap pushHex).length % 2 = 0 := by
    have hflat : (raw.flatMap pushHex).length = 2 * raw.length := by
      rw [List.length_flatMap]
      simp [pushHex, mul_comm]
    omega
  rw [formatBytea, parseBytea]
  simp only [bind, Option.bind_some]
  rw [if_neg (not_not.2 heven), hmap, Option.bind_some, hbytes]
  rfl

theorem filter_zipIdx (raw : Bytes) (start : ℕ) :
    ((raw.zipIdx start).flatMap fun (byte, i) =>
      (if i ∈ [4, 6, 8, 10] then [45] else []) ++ pushHex byte).filter (· ≠ 45) =
        raw.flatMap pushHex := by
  induction raw generalizing start with
  | nil => rfl
  | cons b raw ih =>
    have hhi := (hexVal_hexDigit (n := b.val / 16) (by omega)).2
    have hlo := (hexVal_hexDigit (n := b.val % 16) (by omega)).2
    have hpush : (pushHex b).filter (· ≠ 45) = pushHex b := by
      simp [pushHex, hhi, hlo]
    rw [List.zipIdx_cons, List.flatMap_cons, List.flatMap_cons, List.filter_append, ih,
      List.filter_append, hpush]
    split_ifs <;> rfl

theorem parseUuid_formatUuid {raw : Bytes} (h : raw.length = 16) :
    parseUuid (formatUuid raw) = some raw := by
  obtain ⟨nibbles, hmap, hlen, hbytes⟩ := mapM_hexVal raw
  rw [parseUuid, formatUuid, filter_zipIdx]
  simp only [bind]
  rw [hmap, Option.bind_some, if_pos (by omega), hbytes]

/-! ### Civil times that are read back -/

theorem DateText.not_mem {text : Bytes} {year month day : ℕ}
    (h : Datetime.DateText text year month day) : 66 ∉ text := by
  intro hb
  have hrange := h.mem hb
  revert hrange
  decide

theorem LocalText.not_mem {text : Bytes} {year : ℕ} {localUs : ℤ}
    (h : Datetime.LocalText text year localUs) : 66 ∉ text := by
  obtain ⟨hdate, hsep, hclock⟩ := h
  simp only [List.mem_append, List.mem_cons, not_or]
  refine ⟨DateText.not_mem hdate, ?_, fun hb => ?_⟩
  · rcases hsep with rfl | rfl | rfl <;> decide
  · have hrange := hclock.mem hb
    revert hrange
    decide

theorem ZoneText.not_mem {text : Bytes} {offset : ℤ} (h : Datetime.ZoneText text offset) :
    66 ∉ text := by
  obtain _ | hc | ⟨hc, ht⟩ := h
  · exact List.not_mem_nil
  · rcases hc with rfl | rfl <;> decide
  · have hfield : ∀ {t : Bytes} {n bound : ℕ}, Datetime.Field t n bound → 66 ∉ t :=
      fun hf => hf.not_mem (by decide)
    rw [List.mem_cons, not_or]
    refine ⟨by cases hc <;> decide, ?_⟩
    cases ht with
    | hours hhh => exact hfield hhh
    | compact hhh hmm => simp [hfield hhh, hfield hmm]
    | minutes hhh hmm => simp [hfield hhh, hfield hmm]
    | seconds hhh hmm hss => simp [hfield hhh, hfield hmm, hfield hss]

theorem InstantText.not_mem {text : Bytes} {localUs utc : ℤ}
    (h : Datetime.InstantText text localUs utc) : 66 ∉ text := by
  obtain ⟨ht, hzone⟩ := h
  rw [List.mem_append, not_or]
  exact ⟨LocalText.not_mem ht, ZoneText.not_mem hzone⟩

/-- Dates are read back from the year 1 on. -/
theorem formatDate_read_back {days : ℤ} (h : FitsI32 days) : ∃ text, formatDate days = some text ∧
    (foldTextField text .date = .ok (.date days) ↔ Datetime.epochDay 1 1 1 ≤ days) := by
  obtain ⟨h, h'⟩ := id h
  have hlow : -2 ^ 40 ≤ days := by omega
  obtain ⟨year, month, day, y, suffix, hcivil, hyear, hera⟩ := exists_civil hlow (by omega)
  refine ⟨dateText y month day ++ suffix, ?_, ?_⟩
  · rw [formatDate, hcivil]
    simp only [bind, Option.bind_some]
    rw [hyear]
    rfl
  · obtain ⟨a, hhead, ha⟩ := head_dateText y month day suffix
    rw [foldTextField_date]
    rw [foldCivilText_ok]
    rcases hera with ⟨hlt, rfl⟩ | ⟨hle, rfl, yn, m, d, rfl, rfl, rfl, hday, hepoch⟩
    · have htrim := trim_text hhead ha (l := dateText y month day ++ [32]) (r := [66, 67])
        (by rw [List.append_assoc]; rfl) (by simp) (by decide +kernel)
      refine ⟨fun ⟨t, ht, _⟩ => ?_, fun hle => absurd hle (not_le.2 hlt)⟩
      rw [htrim, Datetime.parseDate_ok_iff, htrim] at ht
      obtain ⟨yn, m, d, hdate, -⟩ := ht
      refine absurd ?_ (DateText.not_mem hdate)
      exact List.mem_append_right _ (by decide)
    · have hdate := dateText_isDay hday
      rw [List.append_nil] at hhead ⊢
      have htrim := trim_text hhead ha (l := []) (r := dateText yn m d) rfl
        (fun hnil => by rw [hnil] at hhead; cases hhead) fun b hb => by
          have hrange := mem_dateText hb
          omega
      refine ⟨fun _ => hle, fun _ => ⟨days, ?_, rfl⟩⟩
      rw [htrim, Datetime.parseDate_ok_iff, htrim]
      exact ⟨yn, m, d, hdate, hepoch.symm, h, h'⟩

theorem localMicros_one : Datetime.localMicros 1 1 1 0 0 0 0 =
    Datetime.epochDay 1 1 1 * (24 * 3600 * 10 ^ 6) := by
  rw [Datetime.localMicros]
  norm_num

/-- What is shown of an instant: its civil time, and the suffix of its era. -/
theorem exists_timestamp {micros : ℤ} (h : FitsI64 micros) : ∃ (y month day : ℤ) (suffix : Bytes),
    formatTimestamp micros = some (dateText y month day ++
      32 :: timeText (micros % Datetime.microsPerDay) ++ suffix) ∧
    (micros < Datetime.localMicros 1 1 1 0 0 0 0 ∧ suffix = ascii " BC" ∨
      Datetime.localMicros 1 1 1 0 0 0 0 ≤ micros ∧ suffix = [] ∧ ∃ year, Datetime.LocalText
        (dateText y month day ++ 32 :: timeText (micros % Datetime.microsPerDay)) year micros) := by
  have hdiv : 0 ≤ micros % Datetime.microsPerDay ∧
      micros % Datetime.microsPerDay < Datetime.microsPerDay ∧
        micros = micros / Datetime.microsPerDay * (24 * 3600 * 10 ^ 6) +
          micros % Datetime.microsPerDay ∧
            -2 ^ 40 ≤ micros / Datetime.microsPerDay ∧ micros / Datetime.microsPerDay ≤ 2 ^ 40 := by
    simp only [FitsI64, i64Min, i64Max] at h
    simp only [Datetime.microsPerDay, Datetime.microsPerSec]
    omega
  obtain ⟨h0, hlt, hmicros, hlow, hhigh⟩ := hdiv
  obtain ⟨year, month, day, y, suffix, hcivil, hyear, hera⟩ := exists_civil hlow hhigh
  have hday : Datetime.microsPerDay = 24 * 3600 * 10 ^ 6 := rfl
  refine ⟨y, month, day, suffix, ?_, ?_⟩
  · rw [formatTimestamp]
    simp only [bind]
    rw [hcivil]
    simp only [Option.bind_some]
    rw [hyear]
    rfl
  · rw [localMicros_one]
    rcases hera with ⟨hbefore, hsuffix⟩ | ⟨hle, hsuffix, yn, m, d, rfl, rfl, rfl, hisDay, hepoch⟩
    · exact .inl ⟨by omega, hsuffix⟩
    · obtain ⟨hh, mm, ss, us, hclock, htod⟩ := timeText_clock h0 hlt
      refine .inr ⟨by omega, hsuffix, yn, ?_⟩
      have hlocal := Datetime.LocalText.mk (dateText_isDay hisDay) (.inl rfl) hclock
      rwa [Datetime.localMicros, hepoch, htod, ← hmicros] at hlocal

theorem mem_stampText {y month day tod : ℤ} {b : Fin 256}
    (h : b ∈ dateText y month day ++ 32 :: timeText tod) : 32 ≤ b ∧ b ≤ 58 := by
  rcases List.mem_append.1 h with h | h
  · have hrange := mem_dateText h
    omega
  · rcases List.mem_cons.1 h with rfl | h
    · decide
    · have hrange := mem_timeText h
      omega

theorem timeText_ne_nil (tod : ℤ) : timeText tod ≠ [] := by
  simp [timeText]

/-- The text of an instant and a suffix is not trimmed. -/
theorem trim_stampText (y month day tod : ℤ) (suffix : Bytes) {l r : Bytes}
    (hsuffix : suffix = l ++ r) (hne : r ≠ []) (hr : ∀ b ∈ r, 0x20 < b ∧ b < 0x80) :
    trim (dateText y month day ++ 32 :: timeText tod ++ suffix) =
      dateText y month day ++ 32 :: timeText tod ++ suffix := by
  obtain ⟨a, hhead, ha⟩ := head_dateText y month day (32 :: timeText tod ++ suffix)
  rw [← List.append_assoc] at hhead
  refine trim_text hhead ha (l := dateText y month day ++ 32 :: timeText tod ++ l) (r := r) ?_ hne
    hr
  rw [hsuffix]
  simp only [List.append_assoc]

theorem validUtf8_stampText (y month day tod : ℤ) (suffix : Bytes) (h : ∀ b ∈ suffix, b < 0x80) :
    validUtf8 (dateText y month day ++ 32 :: timeText tod ++ suffix) := by
  refine validUtf8_of_ascii fun b hb => ?_
  rcases List.mem_append.1 hb with hb | hb
  · have hrange := mem_stampText hb
    omega
  · exact h b hb

/-- Timestamps are read back from the year 1 on. -/
theorem formatTimestamp_read_back {micros : ℤ} (h : FitsI64 micros) :
    ∃ text, formatTimestamp micros = some text ∧
      (foldTextField text .timestamp = .ok (.timestamp micros) ↔
        Datetime.localMicros 1 1 1 0 0 0 0 ≤ micros) := by
  obtain ⟨y, month, day, suffix, hformat, hera⟩ := exists_timestamp h
  refine ⟨_, hformat, ?_⟩
  rw [foldTextField_timestamp]
  rw [foldCivilText_ok]
  rcases hera with ⟨hlt, rfl⟩ | ⟨hle, rfl, year, hlocal⟩
  · have htrim := trim_stampText y month day (micros % Datetime.microsPerDay) (ascii " BC")
      (l := [32]) (r := [66, 67]) (by decide)
      (by simp) (by decide +kernel)
    have hvalid := validUtf8_stampText y month day (micros % Datetime.microsPerDay) (ascii " BC")
      (by decide +kernel)
    refine ⟨fun ⟨t, ht, _⟩ => ?_, fun hle => absurd hle (not_le.2 hlt)⟩
    rw [htrim, Datetime.parseTimestamp_ok_iff hvalid, htrim] at ht
    obtain ⟨⟨year, hlocal⟩, -⟩ := ht
    refine absurd ?_ (LocalText.not_mem hlocal)
    exact List.mem_append_right _ (by decide)
  · have hvalid := validUtf8_stampText y month day (micros % Datetime.microsPerDay) [] (by simp)
    obtain ⟨a, hhead, ha⟩ :=
      head_dateText y month day (32 :: timeText (micros % Datetime.microsPerDay))
    rw [List.append_nil] at hvalid ⊢
    have htrim := trim_text hhead ha (l := dateText y month day ++ [32])
      (r := timeText (micros % Datetime.microsPerDay)) (by simp) (timeText_ne_nil _) fun b hb => by
        have hrange := mem_timeText hb
        omega
    refine ⟨fun _ => hle, fun _ => ⟨micros, ?_, rfl⟩⟩
    rw [htrim, Datetime.parseTimestamp_ok_iff hvalid, htrim]
    exact ⟨⟨year, hlocal⟩, h⟩

/-- The offset stands before the suffix of the era. -/
theorem exists_timestamptz {micros : ℤ} {base suffix : Bytes}
    (hformat : formatTimestamp micros = some (base ++ suffix)) (hbase : ∀ b ∈ base, b ≤ 58)
    (hsuffix : suffix = ascii " BC" ∨ suffix = []) :
    formatTimestamptz micros = some (base ++ (ascii "+00" ++ suffix)) := by
  rw [formatTimestamptz, hformat]
  simp only [bind, Option.bind_some]
  rcases hsuffix with rfl | rfl
  · have hlen : (base ++ ascii " BC").length - 3 = base.length := by
      rw [List.length_append]
      exact Nat.add_sub_cancel _ _
    rw [if_pos (List.isSuffixOf_iff_suffix.2 (List.suffix_append base _)), hlen, List.take_left]
    rfl
  · rw [if_neg, List.append_nil, List.append_nil]
    · rfl
    · rw [List.append_nil, List.isSuffixOf_iff_suffix]
      intro hsuffix
      have hmem := hbase 67 (hsuffix.subset (by decide))
      revert hmem
      decide

/-- Instants are read back from the year 1 on. -/
theorem formatTimestamptz_read_back {micros : ℤ} (h : FitsI64 micros) :
    ∃ text, formatTimestamptz micros = some text ∧
      (foldTextField text .timestampTz = .ok (.timestampTz micros) ↔
        Datetime.localMicros 1 1 1 0 0 0 0 ≤ micros) := by
  obtain ⟨y, month, day, suffix, hformat, hera⟩ := exists_timestamp h
  have hbase : ∀ b ∈ dateText y month day ++ 32 :: timeText (micros % Datetime.microsPerDay),
      b ≤ 58 := fun b hb => (mem_stampText hb).2
  rcases hera with ⟨hlt, rfl⟩ | ⟨hle, rfl, year, hlocal⟩
  · refine ⟨_, exists_timestamptz hformat hbase (.inl rfl), ?_⟩
    have htrim := trim_stampText y month day (micros % Datetime.microsPerDay)
      (ascii "+00" ++ ascii " BC") (l := ascii "+00 ") (r := [66, 67]) (by decide)
      (by simp) (by decide +kernel)
    have hvalid := validUtf8_stampText y month day (micros % Datetime.microsPerDay)
      (ascii "+00" ++ ascii " BC") (by decide +kernel)
    rw [foldTextField_timestampTz]
    rw [foldCivilText_ok]
    refine ⟨fun ⟨t, ht, _⟩ => ?_, fun hle => absurd hle (not_le.2 hlt)⟩
    rw [htrim] at ht
    obtain ⟨localUs, hinstant, -⟩ := Datetime.parseTimestamptz_ok hvalid ht
    rw [htrim] at hinstant
    refine absurd ?_ (InstantText.not_mem hinstant)
    exact List.mem_append_right _ (by decide)
  · refine ⟨_, exists_timestamptz hformat hbase (.inr rfl), ?_⟩
    have hzone : ascii "+00" = [43, 48, 48] := by decide
    rw [List.append_nil, hzone]
    have htrim := trim_stampText y month day (micros % Datetime.microsPerDay) [43, 48, 48]
      (l := []) (r := [43, 48, 48]) rfl (by simp) (by decide +kernel)
    have hvalid := validUtf8_stampText y month day (micros % Datetime.microsPerDay) [43, 48, 48]
      (by decide +kernel)
    have hzero : Datetime.Field [48, 48] 0 23 := ⟨rfl, by decide +kernel, rfl, by decide⟩
    have hinstant := Datetime.InstantText.mk hlocal (.offset .plus (.hours hzero))
    have hutc : micros - 1 * (((0 : ℕ) : ℤ) * 3600 + ((0 : ℕ) : ℤ) * 60 + ((0 : ℕ) : ℤ)) * 10 ^ 6 =
        micros := by norm_num
    rw [hutc] at hinstant
    rw [foldTextField_timestampTz]
    rw [foldCivilText_ok]
    refine ⟨fun _ => hle, fun _ => ⟨micros, ?_, rfl⟩⟩
    rw [htrim]
    rw [← htrim] at hinstant
    obtain ⟨e, he⟩ := Datetime.parseTimestamptz_of_text hvalid hinstant
    rw [he, if_pos ⟨h, h⟩]

/-! ### All values -/

/-- A civil time of the year 1 or later, or a value of another type. -/
def ScalarValue.FromYearOne : ScalarValue → Prop
  | .date days => Datetime.epochDay 1 1 1 ≤ days
  | .timestamp micros | .timestampTz micros => Datetime.localMicros 1 1 1 0 0 0 0 ≤ micros
  | _ => True

end SteleDb
