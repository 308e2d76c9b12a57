import XinuRpi4.Foundation.Calendar

/-!
# The date of an NTP reply

`wifi_ntp` turns the Unix time into the date and the time of day in Japan by a closed formula, in
which a year begins in March. The calendar counts the days from 1970-01-01 on one by one.
-/

namespace XinuRpi4.Wifi

open XinuRpi4.Foundation

/-- What `wifi_ntp` prints of a time. -/
structure CivilTime where
  year : ℤ
  mm : ℤ
  dd : ℤ
  hour : ℤ
  minute : ℤ
  second : ℤ
deriving DecidableEq

/-- The result of an operation on `unsigned` as the processor has it. -/
def wrapU32 (x : ℤ) : Option ℤ := some (x % 2 ^ 32)

/-- The result of a conversion to `int`. -/
def wrapI32 (x : ℤ) : Option ℤ := some (x.bmod (2 ^ 32))

/-- No result when the value is none of the type. -/
def checkedU32 (x : ℤ) : Option ℤ := if 0 ≤ x ∧ x < 2 ^ 32 then some x else none

def checkedI32 (x : ℤ) : Option ℤ := if -2 ^ 31 ≤ x ∧ x < 2 ^ 31 then some x else none

/-- The date part of `wifi_ntp`; every value of 32 bits that is not a quotient or a remainder goes
through `u32` or `i32`. -/
def civilDate (u32 i32 : ℤ → Option ℤ) (secs : ℕ) : Option CivilTime := do
  let jst : ℤ := (secs + 9 * 3600) % 2 ^ 64
  let z := jst / 86400 + 719468
  let era := (if z ≥ 0 then z else z - 146096).tdiv 146097
  let doe ← u32 (z - era * 146097)
  let doe₁ ← u32 (doe - doe / 1460)
  let doe₂ ← u32 (doe₁ + doe / 36524)
  let doe₃ ← u32 (doe₂ - doe / 146096)
  let yoe := doe₃ / 365
  let yy := yoe + era * 400
  let days₁ ← u32 (365 * yoe)
  let days₂ ← u32 (days₁ + yoe / 4)
  let days₃ ← u32 (days₂ - yoe / 100)
  let doy ← u32 (doe - days₃)
  let doy₁ ← u32 (5 * doy)
  let doy₂ ← u32 (doy₁ + 2)
  let mp := doy₂ / 153
  let mp₁ ← u32 (153 * mp)
  let mp₂ ← u32 (mp₁ + 2)
  let dd₁ ← u32 (doy - mp₂ / 5)
  let dd ← u32 (dd₁ + 1)
  let mm ← u32 (if mp < 10 then mp + 3 else mp - 9)
  let year ← i32 (yy + if mm ≤ 2 then 1 else 0)
  let tod ← i32 (jst % 86400)
  return ⟨year, mm, dd, tod / 3600, tod % 3600 / 60, tod % 60⟩

/-- The date of the calendar and the time of day, 9 hours ahead of the Unix time. -/
def jstTime (secs : ℕ) : CivilTime where
  year := (Date.ofDay ((secs + 9 * 3600) / 86400)).year
  mm := (Date.ofDay ((secs + 9 * 3600) / 86400)).month
  dd := (Date.ofDay ((secs + 9 * 3600) / 86400)).day
  hour := ((secs + 9 * 3600) % 86400 / 3600 : ℕ)
  minute := ((secs + 9 * 3600) % 3600 / 60 : ℕ)
  second := ((secs + 9 * 3600) % 60 : ℕ)

section Steps

variable {u32 i32 : ℤ → Option ℤ} {secs : ℕ}

/-- The year and the day as the formula has them, in eras of 400 years. -/
theorem exists_era {d : Date} (h : d.Valid) : ∃ e c a b, c ≤ 3 ∧ a ≤ 24 ∧ b ≤ 3 ∧
    (d.dayOfYear = 365 → b = 3 ∧ (a ≠ 24 ∨ c = 3)) ∧
    d.marchYear = 400 * e + 100 * c + 4 * a + b ∧
    d.dayNumber = 146097 * e + (36524 * c + 1461 * a + 365 * b + d.dayOfYear) := by
  obtain ⟨e, c, a, b, hc, ha, hb, hy⟩ := exists_split d.marchYear
  refine ⟨e, c, a, b, hc, ha, hb, fun hdoy => ?_, hy, ?_⟩
  · have hleap := h.isLeap_of_dayOfYear hdoy
    rwa [hy, isLeap_split hc ha hb] at hleap
  · rw [Date.dayNumber, hy, yearStart_split hc ha hb]
    ring

/-- The formula, as long as the values are in the range of their types. -/
theorem civilDate_eq (hu : ∀ (x : ℤ) (n : ℕ), x = n → n < 2 ^ 32 → u32 x = some (n : ℤ))
    (hi : ∀ (x : ℤ) (n : ℕ), x = n → n < 2 ^ 31 → i32 x = some (n : ℤ)) (hsecs : secs < 2 ^ 55) :
    civilDate u32 i32 secs = some (jstTime secs) := by
  obtain ⟨hvalid, hnumber⟩ := Date.ofDay_valid ((secs + 9 * 3600) / 86400)
  have hjst : ((secs : ℤ) + 9 * 3600) % 2 ^ 64 = ((secs + 9 * 3600 : ℕ) : ℤ) := by omega
  rw [jstTime, civilDate, hjst]
  generalize Date.ofDay ((secs + 9 * 3600) / 86400) = d at *
  obtain ⟨e, c, a, b, hc, ha, hb, hleap, hy, hz⟩ := exists_era hvalid
  have hdoy := hvalid.dayOfYear_le
  have hmp := hvalid.marchMonth_eq
  have hmle := hvalid.marchMonth_le
  obtain ⟨D, hD⟩ : ∃ D, D = 36524 * c + 1461 * a + 365 * b + d.dayOfYear := ⟨_, rfl⟩
  have hyoe := yearOfEra_eq hc ha hb hdoy hleap hD
  obtain ⟨t, ht⟩ : ∃ t, t = secs + 9 * 3600 := ⟨_, rfl⟩
  rw [← ht] at hnumber ⊢
  rw [← hD, hnumber] at hz
  have hDlt : D < 146097 := by omega
  have hz' : (t : ℤ) / 86400 + 719468 = ((146097 * e + D : ℕ) : ℤ) := by omega
  have hera : (if ((146097 * e + D : ℕ) : ℤ) ≥ 0 then ((146097 * e + D : ℕ) : ℤ)
      else ((146097 * e + D : ℕ) : ℤ) - 146096).tdiv 146097 = e := by
    rw [if_pos (Int.natCast_nonneg _), Int.tdiv_eq_ediv_of_nonneg (Int.natCast_nonneg _)]
    omega
  have hdays : (365 * (100 * c + 4 * a + b) + (100 * c + 4 * a + b) / 4
      - (100 * c + 4 * a + b) / 100) + d.dayOfYear = D := by
    have h4 : (100 * c + 4 * a + b) / 4 = 25 * c + a := by omega
    have h100 : (100 * c + 4 * a + b) / 100 = c := by omega
    rw [h4, h100, hD]
    ring_nf
    omega
  obtain ⟨Y, hY⟩ : ∃ Y, Y = 100 * c + 4 * a + b := ⟨_, rfl⟩
  rw [← hY] at hyoe hdays
  have hYle : Y < 400 := by omega
  rw [hz', hera]
  refine Option.bind_eq_some_iff.mpr ⟨D, hu _ D (by omega) (by omega), ?_⟩
  refine Option.bind_eq_some_iff.mpr ⟨_, hu _ (D - D / 1460) (by omega) (by omega), ?_⟩
  refine Option.bind_eq_some_iff.mpr
    ⟨_, hu _ (D - D / 1460 + D / 36524) (by omega) (by omega), ?_⟩
  refine Option.bind_eq_some_iff.mpr
    ⟨_, hu _ (D - D / 1460 + D / 36524 - D / 146096) (by omega) (by omega), ?_⟩
  have hyoe' : ((D - D / 1460 + D / 36524 - D / 146096 : ℕ) : ℤ) / 365 = Y := by omega
  rw [hyoe']
  refine Option.bind_eq_some_iff.mpr ⟨_, hu _ (365 * Y) (by omega) (by omega), ?_⟩
  refine Option.bind_eq_some_iff.mpr ⟨_, hu _ (365 * Y + Y / 4) (by omega) (by omega), ?_⟩
  refine Option.bind_eq_some_iff.mpr ⟨_, hu _ (365 * Y + Y / 4 - Y / 100) (by omega) (by omega), ?_⟩
  refine Option.bind_eq_some_iff.mpr ⟨_, hu _ d.dayOfYear (by omega) (by omega), ?_⟩
  refine Option.bind_eq_some_iff.mpr ⟨_, hu _ (5 * d.dayOfYear) (by omega) (by omega), ?_⟩
  refine Option.bind_eq_some_iff.mpr ⟨_, hu _ (5 * d.dayOfYear + 2) (by omega) (by omega), ?_⟩
  have hmp' : ((5 * d.dayOfYear + 2 : ℕ) : ℤ) / 153 = d.marchMonth := by omega
  rw [hmp']
  have hday : d.dayOfYear = (153 * d.marchMonth + 2) / 5 + d.day - 1 := rfl
  obtain ⟨hyear, ⟨hm1, hm12⟩, hd1, hd2⟩ := hvalid
  have hd31 := hd2.trans (Date.daysIn_le _ _)
  refine Option.bind_eq_some_iff.mpr ⟨_, hu _ (153 * d.marchMonth) (by omega) (by omega), ?_⟩
  refine Option.bind_eq_some_iff.mpr ⟨_, hu _ (153 * d.marchMonth + 2) (by omega) (by omega), ?_⟩
  refine Option.bind_eq_some_iff.mpr ⟨_, hu _ (d.day - 1) (by omega) (by omega), ?_⟩
  refine Option.bind_eq_some_iff.mpr ⟨_, hu _ d.day (by omega) (by omega), ?_⟩
  have hmonth : (if (d.marchMonth : ℤ) < 10 then (d.marchMonth : ℤ) + 3
      else d.marchMonth - 9) = d.month := by
    unfold Date.marchMonth
    split_ifs <;> omega
  refine Option.bind_eq_some_iff.mpr ⟨_, hu _ d.month hmonth (by omega), ?_⟩
  have hyear' : (Y : ℤ) + e * 400 + (if (d.month : ℤ) ≤ 2 then 1 else 0) = d.year := by
    rw [Date.marchYear] at hy
    split_ifs at hy ⊢ <;> omega
  refine Option.bind_eq_some_iff.mpr ⟨_, hi _ d.year hyear' (by omega), ?_⟩
  refine Option.bind_eq_some_iff.mpr ⟨_, hi _ (t % 86400) (by omega) (by omega), ?_⟩
  have hhour : ((t % 86400 : ℕ) : ℤ) / 3600 = ((t % 86400 / 3600 : ℕ) : ℤ) := by omega
  have hminute : ((t % 86400 : ℕ) : ℤ) % 3600 / 60 = ((t % 3600 / 60 : ℕ) : ℤ) := by omega
  have hsecond : ((t % 86400 : ℕ) : ℤ) % 60 = ((t % 60 : ℕ) : ℤ) := by omega
  rw [hhour, hminute, hsecond]
  rfl

end Steps

theorem wrapU32_eq (x : ℤ) (n : ℕ) (h : x = n) (hlt : n < 2 ^ 32) : wrapU32 x = some (n : ℤ) := by
  rw [wrapU32, h, Int.emod_eq_of_lt (Int.natCast_nonneg n) (by exact_mod_cast hlt)]

theorem wrapI32_eq (x : ℤ) (n : ℕ) (h : x = n) (hlt : n < 2 ^ 31) : wrapI32 x = some (n : ℤ) := by
  rw [wrapI32, h, Int.bmod_eq_of_le (by omega) (by omega)]

theorem checkedU32_eq (x : ℤ) (n : ℕ) (h : x = n) (hlt : n < 2 ^ 32) :
    checkedU32 x = some (n : ℤ) := by
  rw [checkedU32, h, if_pos ⟨Int.natCast_nonneg n, by exact_mod_cast hlt⟩]

theorem checkedI32_eq (x : ℤ) (n : ℕ) (h : x = n) (hlt : n < 2 ^ 31) :
    checkedI32 x = some (n : ℤ) := by
  rw [checkedI32, h, if_pos (by omega)]

/-- The date is that of the calendar, no value of 32 bits wraps around, and a day later the date
is the next one. -/
theorem ntp_date (secs : ℕ) (h : secs < 2 ^ 55) :
    civilDate wrapU32 wrapI32 secs = some (jstTime secs) ∧
    civilDate checkedU32 checkedI32 secs = some (jstTime secs) ∧
    Date.ofDay ((secs + 86400 + 9 * 3600) / 86400) =
      (Date.ofDay ((secs + 9 * 3600) / 86400)).next := by
  refine ⟨civilDate_eq wrapU32_eq wrapI32_eq h, civilDate_eq checkedU32_eq checkedI32_eq h, ?_⟩
  rw [← Date.ofDay_succ]
  congr 1
  omega

theorem second_day : civilDate wrapU32 wrapI32 54000 = some ⟨1970, 1, 2, 0, 0, 0⟩ :=
  (ntp_date 54000 (by norm_num)).1.trans (by decide)

end XinuRpi4.Wifi
