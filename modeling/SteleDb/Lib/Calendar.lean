import Mathlib

/-!
# The proleptic Gregorian calendar

Days are counted by the lengths of the years and months before them.  The count has a closed form,
which is the usual one over eras of 400 years that begin in March, and so has its inverse.

* `era_days` : the closed form of the count;
* `civil_of_dayNumber` : the inverse names the day with a number, for days since the year 0.
-/

namespace SteleDb

/-- The year has a 29th of February. -/
def isLeapYear (year : ℕ) : Bool := year % 4 = 0 ∧ (year % 100 ≠ 0 ∨ year % 400 = 0)

/-- The days of a month. -/
def daysInMonth (year month : ℕ) : ℕ :=
  match month with
  | 1 | 3 | 5 | 7 | 8 | 10 | 12 => 31
  | 4 | 6 | 9 | 11 => 30
  | 2 => if isLeapYear year then 29 else 28
  | _ => 0

theorem daysInMonth_le (year month : ℕ) : daysInMonth year month ≤ 31 := by
  unfold daysInMonth
  split
  all_goals first | omega | split_ifs <;> omega

/-- A day of the calendar. -/
structure IsDay (year month day : ℕ) : Prop where
  month_pos : 1 ≤ month
  month_le : month ≤ 12
  day_pos : 1 ≤ day
  day_le : day ≤ daysInMonth year month

instance (year month day : ℕ) : Decidable (IsDay year month day) :=
  decidable_of_iff (1 ≤ month ∧ month ≤ 12 ∧ 1 ≤ day ∧ day ≤ daysInMonth year month)
    ⟨fun h => ⟨h.1, h.2.1, h.2.2.1, h.2.2.2⟩, fun h => ⟨h.1, h.2, h.3, h.4⟩⟩

/-- The days of a year. -/
def daysInYear (year : ℕ) : ℕ := ∑ month ∈ Finset.Icc 1 12, daysInMonth year month

/-- The days before a day, counted from the start of the year 0: those of the years before, of the
months before, and of the month. -/
def dayNumber (year month day : ℕ) : ℕ :=
  ∑ y ∈ Finset.range year, daysInYear y + ∑ m ∈ Finset.Ico 1 month, daysInMonth year m + (day - 1)

theorem isLeapYear_iff {year : ℕ} :
    isLeapYear year = true ↔ year % 4 = 0 ∧ (year % 100 ≠ 0 ∨ year % 400 = 0) := decide_eq_true_iff

theorem daysInYear_eq (year : ℕ) : daysInYear year = if isLeapYear year then 366 else 365 := by
  have h : daysInYear year = 337 + daysInMonth year 2 := by
    rw [daysInYear, show Finset.Icc 1 12 = {1, 2, 3, 4, 5, 6, 7, 8, 9, 10, 11, 12} by decide]
    simp [daysInMonth]
    omega
  rw [h, daysInMonth]
  split_ifs <;> rfl

/-- The days before the first of March of a year, from the one of the year 0. -/
def marchDays (year : ℤ) : ℤ := 365 * year + year / 4 - year / 100 + year / 400

/-- The days of the years before a year. -/
theorem sum_daysInYear (year : ℕ) :
    ((∑ y ∈ Finset.range year, daysInYear y : ℕ) : ℤ) = marchDays (year - 1) + 366 := by
  induction year with
  | zero => rfl
  | succ year ih =>
    rw [Finset.sum_range_succ, daysInYear_eq, Nat.cast_add, ih]
    simp only [marchDays]
    by_cases h : isLeapYear year = true
    · rw [if_pos h]
      have hleap := isLeapYear_iff.1 h
      omega
    · rw [if_neg h]
      have hleap := mt isLeapYear_iff.2 h
      omega

/-- The years before March of a year, and its January and February. -/
theorem sum_daysInYear_add (year : ℕ) :
    ((∑ y ∈ Finset.range year, daysInYear y : ℕ) : ℤ) + 31 + daysInMonth year 2 =
      marchDays year + 60 := by
  have hnext := sum_daysInYear (year + 1)
  rw [Finset.sum_range_succ, daysInYear_eq, Nat.cast_add] at hnext
  have hback : ((year + 1 : ℕ) : ℤ) - 1 = year := by omega
  rw [hback] at hnext
  rw [daysInMonth]
  by_cases h : isLeapYear year = true
  · rw [if_pos h] at hnext ⊢
    omega
  · rw [if_neg h] at hnext ⊢
    omega

/-- The days before a year's March, by eras of 400 years. -/
theorem marchDays_era (year : ℤ) :
    year / 400 * 146097 + ((year - year / 400 * 400) * 365 + (year - year / 400 * 400) / 4 -
      (year - year / 400 * 400) / 100) = marchDays year := by
  have h4 : (year - year / 400 * 400) / 4 = year / 4 - year / 400 * 100 := by omega
  have h100 : (year - year / 400 * 400) / 100 = year / 100 - year / 400 * 4 := by omega
  rw [h4, h100, marchDays]
  omega

/-- The days of the months before a month. -/
theorem sum_daysInMonth {year month : ℕ} (h : 1 ≤ month) (h' : month ≤ 12) :
    ∑ m ∈ Finset.Ico 1 month, daysInMonth year m =
      if month ≤ 2 then 31 * (month - 1)
      else (153 * (month - 3) + 2) / 5 + 31 + daysInMonth year 2 := by
  interval_cases month <;>
    simp [Finset.sum_Ico_succ_top, daysInMonth] <;> omega

/-- **The closed form of the count**: the days of the eras before, of the years of the era, and of
the months since March; the first of March of the year 0 has the number 60. -/
theorem era_days {year month day : ℕ} (h : 1 ≤ month) (h' : month ≤ 12) (hd : 1 ≤ day) {y : ℤ}
    (hy : y = (year : ℤ) - if month ≤ 2 then 1 else 0) :
    (dayNumber year month day : ℤ) = y / 400 * 146097 + ((y - y / 400 * 400) * 365 +
      (y - y / 400 * 400) / 4 - (y - y / 400 * 400) / 100 +
        ((153 * (if 2 < month then (month : ℤ) - 3 else (month : ℤ) + 9) + 2) / 5 + day - 1)) +
          60 := by
  have hera := marchDays_era y
  have hsum : (dayNumber year month day : ℤ) = marchDays y +
      ((153 * (if 2 < month then (month : ℤ) - 3 else (month : ℤ) + 9) + 2) / 5 + day - 1) +
        60 := by
    rw [dayNumber, Nat.cast_add, Nat.cast_add, sum_daysInMonth h h']
    by_cases hm : month ≤ 2
    · rw [if_pos hm] at hy
      rw [sum_daysInYear, ← hy, if_pos hm, if_neg (not_lt.2 hm)]
      have hcases : month = 1 ∨ month = 2 := by omega
      rcases hcases with rfl | rfl <;> omega
    · rw [if_neg hm, sub_zero] at hy
      have hyears := sum_daysInYear_add year
      rw [if_neg hm, if_pos (not_le.1 hm), hy]
      omega
  omega

/-! ### The inverse -/

/-- The centuries, leap cycles and years of an era before a day, and the day of the year: each but
the last of an era of 146097 days is one short. -/
structure InEra (doe a b c doy : ℤ) : Prop where
  century : 0 ≤ a ∧ a ≤ 3
  cycle : 0 ≤ b ∧ b ≤ 24
  year : 0 ≤ c ∧ c ≤ 3
  day : 0 ≤ doy
  last : doy ≤ 364 ∨ doy = 365 ∧ c = 3 ∧ (b ≤ 23 ∨ a = 3)
  sum : doe = 36524 * a + 1461 * b + 365 * c + doy

theorem exists_inEra {doe : ℤ} (h : 0 ≤ doe) (h' : doe ≤ 146096) :
    ∃ a b c doy, InEra doe a b c doy := by
  obtain ⟨a, ha, ha', hr, hr'⟩ : ∃ a, 0 ≤ a ∧ a ≤ 3 ∧ 0 ≤ doe - 36524 * a ∧
      (doe - 36524 * a ≤ 36523 ∨ a = 3 ∧ doe - 36524 * a = 36524) := by
    refine ⟨min (doe / 36524) 3, ?_, ?_, ?_, ?_⟩ <;> omega
  generalize hrest : doe - 36524 * a = rest at hr hr'
  obtain ⟨c, hc, hc', hd, hd'⟩ : ∃ c, 0 ≤ c ∧ c ≤ 3 ∧ 0 ≤ rest % 1461 - 365 * c ∧
      (rest % 1461 - 365 * c ≤ 364 ∨ c = 3 ∧ rest % 1461 - 365 * c = 365) := by
    refine ⟨min (rest % 1461 / 365) 3, ?_, ?_, ?_, ?_⟩ <;> omega
  refine ⟨a, rest / 1461, c, rest % 1461 - 365 * c, ⟨ha, ha'⟩, ⟨?_, ?_⟩, ⟨hc, hc'⟩, hd, ?_, ?_⟩ <;>
    omega

/-- The year of the era. -/
theorem InEra.yearOfEra {doe a b c doy : ℤ} (h : InEra doe a b c doy) :
    (doe - doe / 1460 + doe / 36524 - doe / 146096) / 365 = 100 * a + 4 * b + c := by
  obtain ⟨⟨ha, ha'⟩, ⟨hb, hb'⟩, ⟨hc, hc'⟩, hd, hd', he⟩ := h
  have hs : 0 ≤ 365 * c + doy ∧ 365 * c + doy ≤ 1460 := by omega
  have hlast : 365 * c + doy = 1460 → c = 3 ∧ doy = 365 := by omega
  have hr : 0 ≤ 1461 * b + 365 * c + doy ∧ 1461 * b + 365 * c + doy ≤ 36524 := by omega
  have hr' : 1461 * b + 365 * c + doy = 36524 → a = 3 ∧ b = 24 ∧ c = 3 ∧ doy = 365 := by omega
  by_cases hend : doe = 146096
  · omega
  · have hera : doe / 146096 = 0 := by omega
    have hcentury : doe / 36524 = a := by omega
    obtain ⟨e, hq, h1, h2⟩ : ∃ e, doe / 1460 = 25 * a + b + e ∧
        (e = 0 ∨ e = 1 ∧ 1460 ≤ 24 * a + b + (365 * c + doy)) ∧
        (e = 0 → 24 * a + b + (365 * c + doy) ≤ 1459) := by
      refine ⟨doe / 1460 - (25 * a + b), ?_, ?_, ?_⟩ <;> omega
    rw [hera, hcentury, hq]
    omega

/-- The month since March and the day in it, from the day of the year since March. -/
theorem month_of_doy {doy mp day : ℤ} (h : 0 ≤ doy) (h' : doy ≤ 365)
    (hmp : mp = (5 * doy + 2) / 153)
    (hday : day = doy - (153 * mp + 2) / 5 + 1) :
    0 ≤ mp ∧ mp ≤ 11 ∧ 1 ≤ day ∧
      (mp ≠ 11 → day ≤ if mp = 1 ∨ mp = 3 ∨ mp = 6 ∨ mp = 8 then 30 else 31) ∧
      (mp = 11 → day ≤ 29 ∧ (day = 29 → doy = 365)) := by
  have hbound : 0 ≤ mp ∧ mp ≤ 11 := by omega
  obtain ⟨h0, h11⟩ := hbound
  interval_cases mp <;> simp <;> omega

theorem daysInMonth_of_mp {year month : ℕ} {mp : ℤ} (h : 0 ≤ mp) (h' : mp ≤ 10)
    (hm : (month : ℤ) = if mp < 10 then mp + 3 else mp - 9) :
    daysInMonth year month = if mp = 1 ∨ mp = 3 ∨ mp = 6 ∨ mp = 8 then 30 else 31 := by
  obtain ⟨n, rfl⟩ := Int.eq_ofNat_of_zero_le h
  have hn : n ≤ 10 := by omega
  have hmonth : month = if n < 10 then n + 3 else n - 9 := by
    split_ifs at hm ⊢ <;> omega
  subst hmonth
  interval_cases n <;> rfl

/-- The year and the day of the year of a day of an era. -/
theorem InEra.fields {doe a b c d yoe : ℤ} (h : InEra doe a b c d)
    (hy : yoe = 100 * a + 4 * b + c) :
    0 ≤ yoe ∧ yoe ≤ 399 ∧ yoe / 4 = 25 * a + b ∧ yoe / 100 = a ∧
      doe - (365 * yoe + yoe / 4 - yoe / 100) = d := by
  obtain ⟨⟨ha, ha'⟩, ⟨hb, hb'⟩, ⟨hc, hc'⟩, hd, hd', he⟩ := h
  have h4 : yoe / 4 = 25 * a + b := by omega
  have h100 : yoe / 100 = a := by omega
  refine ⟨by omega, by omega, h4, h100, ?_⟩
  rw [h4, h100]
  omega

/-- The last day of a February of 29 days is the last of its leap cycle. -/
theorem InEra.isLeapYear {doe a b c d era : ℤ} {year : ℕ} (h : InEra doe a b c d) (hd : d = 365)
    (hyear : (year : ℤ) = 100 * a + 4 * b + c + era * 400 + 1) : isLeapYear year = true := by
  obtain ⟨⟨ha, ha'⟩, ⟨hb, hb'⟩, ⟨hc, hc'⟩, -, hd', -⟩ := h
  rw [isLeapYear_iff]
  omega

/-- **The inverse of the count**, for days since the first of March of the year 0. -/
theorem civil_of_dayNumber {z doe yoe doy mp : ℤ} (hz : 0 ≤ z)
    (hdoe : doe = z - z / 146097 * 146097)
    (hyoe : yoe = (doe - doe / 1460 + doe / 36524 - doe / 146096) / 365)
    (hdoy : doy = doe - (365 * yoe + yoe / 4 - yoe / 100)) (hmp : mp = (5 * doy + 2) / 153) :
    ∃ year month day : ℕ, IsDay year month day ∧ (dayNumber year month day : ℤ) = z + 60 ∧
      (day : ℤ) = doy - (153 * mp + 2) / 5 + 1 ∧
      (month : ℤ) = (if mp < 10 then mp + 3 else mp - 9) ∧
      (year : ℤ) = yoe + z / 146097 * 400 + if month ≤ 2 then 1 else 0 := by
  have hbounds : 0 ≤ doe ∧ doe ≤ 146096 := by omega
  have hera : 0 ≤ z / 146097 := by omega
  obtain ⟨a, b, c, d, hin⟩ := exists_inEra hbounds.1 hbounds.2
  rw [hin.yearOfEra] at hyoe
  obtain ⟨hy0, hy399, h4, h100, hd⟩ := hin.fields hyoe
  rw [hd] at hdoy
  subst hdoy
  have hd0 := hin.day
  have hd365 : doy ≤ 365 := by
    have hlast := hin.last
    omega
  obtain ⟨hm0, hm11, hday, hlen, hfeb⟩ := month_of_doy hd0 hd365 hmp rfl
  clear hmp
  generalize hera' : z / 146097 = era at *
  obtain ⟨month, hmonth⟩ : ∃ month : ℕ, (month : ℤ) = if mp < 10 then mp + 3 else mp - 9 := by
    refine ⟨(if mp < 10 then mp + 3 else mp - 9).toNat, Int.toNat_of_nonneg ?_⟩
    split_ifs <;> omega
  obtain ⟨year, hyear⟩ : ∃ year : ℕ, (year : ℤ) = yoe + era * 400 + if month ≤ 2 then 1 else 0 := by
    refine ⟨_, Int.toNat_of_nonneg ?_⟩
    split_ifs <;> omega
  have hmonths : 1 ≤ month ∧ month ≤ 12 := by
    split_ifs at hmonth <;> omega
  have hback : (if 2 < month then (month : ℤ) - 3 else (month : ℤ) + 9) = mp := by
    by_cases hlt : mp < 10
    · rw [if_pos hlt] at hmonth
      rw [if_pos (by omega)]
      omega
    · rw [if_neg hlt] at hmonth
      rw [if_neg (by omega)]
      omega
  obtain ⟨day, hdayeq⟩ := Int.eq_ofNat_of_zero_le (by omega : 0 ≤ doy - (153 * mp + 2) / 5 + 1)
  rw [hdayeq] at hday hlen hfeb
  refine ⟨year, month, day, ⟨hmonths.1, hmonths.2, by omega, ?_⟩, ?_, hdayeq.symm, hmonth, hyear⟩
  · by_cases h11 : mp = 11
    · obtain ⟨h29, hlast⟩ := hfeb h11
      have htwo : month = 2 := by
        rw [if_neg (by omega)] at hmonth
        omega
      subst htwo
      rw [if_pos le_rfl, hyoe] at hyear
      rw [daysInMonth]
      by_cases hday29 : day = 29
      · rw [if_pos (hin.isLeapYear (hlast (by rw [hday29]; rfl)) hyear)]
        exact hday29.le
      · split_ifs <;> omega
    · have hlength : daysInMonth year month = _ := daysInMonth_of_mp hm0 (by omega) hmonth
      have hle := hlen h11
      rw [hlength]
      split_ifs at hle ⊢ <;> omega
  · have hy : yoe + era * 400 = (year : ℤ) - if month ≤ 2 then 1 else 0 := by omega
    have hq : (yoe + era * 400) / 400 = era := by omega
    have hr : yoe + era * 400 - era * 400 = yoe := by omega
    have hcount := era_days hmonths.1 hmonths.2 (by omega : 1 ≤ day) hy
    rw [hq, hback, hr] at hcount
    rw [hcount]
    omega

end SteleDb
