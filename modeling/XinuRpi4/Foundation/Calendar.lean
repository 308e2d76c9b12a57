import Mathlib.Tactic

/-!
# The Gregorian calendar

Dates are counted on one by one from 1970-01-01. The number of a date in the days from
0000-03-01 on, when a year begins with March, goes up by one with each of them.
-/

namespace XinuRpi4.Foundation

structure Date where
  year : ℕ
  month : ℕ
  day : ℕ
deriving DecidableEq

def isLeap (y : ℕ) : Prop := y % 4 = 0 ∧ (y % 100 ≠ 0 ∨ y % 400 = 0)

instance (y : ℕ) : Decidable (isLeap y) := inferInstanceAs (Decidable (_ ∧ _))

def daysIn (y : ℕ) : ℕ → ℕ
  | 2 => if isLeap y then 29 else 28
  | 4 | 6 | 9 | 11 => 30
  | _ => 31

namespace Date

def next (d : Date) : Date :=
  if d.day < daysIn d.year d.month then { d with day := d.day + 1 }
  else if d.month < 12 then ⟨d.year, d.month + 1, 1⟩
  else ⟨d.year + 1, 1, 1⟩

/-- The date so many days after 1970-01-01. -/
def ofDay (n : ℕ) : Date := next^[n] ⟨1970, 1, 1⟩

theorem ofDay_succ (n : ℕ) : ofDay (n + 1) = (ofDay n).next :=
  Function.iterate_succ_apply' next n _

structure Valid (d : Date) : Prop where
  year : 1970 ≤ d.year
  month : 1 ≤ d.month ∧ d.month ≤ 12
  day : 1 ≤ d.day ∧ d.day ≤ daysIn d.year d.month

end Date

/-- The days from 0000-03-01 to the first of March of a year. -/
def yearStart (y : ℕ) : ℕ := 365 * y + y / 4 - y / 100 + y / 400

/-- Centuries, leap years and single years of an era of 400 years. -/
theorem exists_split (y : ℕ) : ∃ e c a b, c ≤ 3 ∧ a ≤ 24 ∧ b ≤ 3 ∧
    y = 400 * e + 100 * c + 4 * a + b :=
  ⟨y / 400, y % 400 / 100, y % 100 / 4, y % 4, by omega, by omega, by omega, by omega⟩

section Split

variable {e c a b : ℕ} (hc : c ≤ 3) (ha : a ≤ 24) (hb : b ≤ 3)
include hc ha hb

theorem yearStart_split :
    yearStart (400 * e + 100 * c + 4 * a + b) = 146097 * e + 36524 * c + 1461 * a + 365 * b := by
  have h4 : (400 * e + 100 * c + 4 * a + b) / 4 = 100 * e + 25 * c + a := by omega
  have h100 : (400 * e + 100 * c + 4 * a + b) / 100 = 4 * e + c := by omega
  have h400 : (400 * e + 100 * c + 4 * a + b) / 400 = e := by omega
  rw [yearStart, h4, h100, h400]
  omega

theorem isLeap_split :
    isLeap (400 * e + 100 * c + 4 * a + b + 1) ↔ b = 3 ∧ (a ≠ 24 ∨ c = 3) := by
  have h4 : (400 * e + 100 * c + 4 * a + b + 1) % 4 = 0 ↔ b = 3 := by omega
  have h100 : (400 * e + 100 * c + 4 * a + b + 1) % 100 = 0 ↔ a = 24 ∧ b = 3 := by omega
  have h400 : (400 * e + 100 * c + 4 * a + b + 1) % 400 = 0 ↔ c = 3 ∧ a = 24 ∧ b = 3 := by omega
  rw [isLeap, h4, Ne, h100, h400]
  tauto

end Split

/-- From one first of March to the next are the days up to the end of January and a February. -/
theorem yearStart_succ (y : ℕ) : yearStart (y + 1) = yearStart y + 337 + daysIn (y + 1) 2 := by
  obtain ⟨e, c, a, b, hc, ha, hb, rfl⟩ := exists_split y
  have hleap : daysIn (400 * e + 100 * c + 4 * a + b + 1) 2 =
      if b = 3 ∧ (a ≠ 24 ∨ c = 3) then 29 else 28 := if_congr (isLeap_split hc ha hb) rfl rfl
  rw [hleap, yearStart_split hc ha hb]
  rcases Nat.lt_or_ge b 3 with hb' | hb'
  · have hnext := yearStart_split (e := e) hc ha (show b + 1 ≤ 3 from hb')
    rw [show 400 * e + 100 * c + 4 * a + b + 1 = 400 * e + 100 * c + 4 * a + (b + 1) by ring,
      hnext]
    grind
  · obtain rfl : b = 3 := by omega
    rcases Nat.lt_or_ge a 24 with ha' | ha'
    · have hnext := yearStart_split (e := e) hc (show a + 1 ≤ 24 from ha') (Nat.zero_le 3)
      rw [show 400 * e + 100 * c + 4 * a + 3 + 1 = 400 * e + 100 * c + 4 * (a + 1) + 0 by ring,
        hnext]
      grind
    · obtain rfl : a = 24 := by omega
      rcases Nat.lt_or_ge c 3 with hc' | hc'
      · have hnext := yearStart_split (e := e) (show c + 1 ≤ 3 from hc') (Nat.zero_le 24)
          (Nat.zero_le 3)
        rw [show 400 * e + 100 * c + 4 * 24 + 3 + 1 = 400 * e + 100 * (c + 1) + 4 * 0 + 0 by ring,
          hnext]
        grind
      · obtain rfl : c = 3 := by omega
        have hnext := yearStart_split (e := e + 1) (Nat.zero_le 3) (Nat.zero_le 24)
          (Nat.zero_le 3)
        rw [show 400 * e + 100 * 3 + 4 * 24 + 3 + 1 = 400 * (e + 1) + 100 * 0 + 4 * 0 + 0 by ring,
          hnext]
        grind

/-- How the year of an era is found again from the day of the era. -/
theorem yearOfEra_eq {c a b doy doe : ℕ} (hc : c ≤ 3) (ha : a ≤ 24) (hb : b ≤ 3) (hdoy : doy ≤ 365)
    (hleap : doy = 365 → b = 3 ∧ (a ≠ 24 ∨ c = 3))
    (hdoe : doe = 36524 * c + 1461 * a + 365 * b + doy) :
    (doe - doe / 1460 + doe / 36524 - doe / 146096) / 365 = 100 * c + 4 * a + b := by
  obtain ⟨q, hq⟩ : ∃ q, q = (24 * c + a + 365 * b + doy) / 1460 := ⟨_, rfl⟩
  obtain ⟨p, hp⟩ : ∃ p, p = (1461 * a + 365 * b + doy) / 36524 := ⟨_, rfl⟩
  have h1 : doe / 1460 = 25 * c + a + q := by omega
  have h2 : doe / 36524 = c + p := by omega
  -- the end of a century is a 29th of February only where the era ends too
  have h3 : doe / 146096 = p := by
    rcases eq_or_ne doy 365 with hlast | hlast
    · obtain ⟨rfl, hleap⟩ := hleap hlast
      omega
    · omega
  have hq' : q = 0 ∧ doy ≤ 364 ∨ q = 1 ∧ 1 ≤ doy := by omega
  have hsum : 36524 * c + 1461 * a + 365 * b = 365 * (100 * c + 4 * a + b) + 24 * c + a := by ring
  rw [h1, h2, h3, hdoe]
  clear h1 h2 h3 hp hq hdoe hleap
  omega

namespace Date

/-- The year that has begun in March. -/
def marchYear (d : Date) : ℕ := if d.month ≤ 2 then d.year - 1 else d.year

/-- Counted from March, which is 0. -/
def marchMonth (d : Date) : ℕ := if d.month ≤ 2 then d.month + 9 else d.month - 3

def dayOfYear (d : Date) : ℕ := (153 * d.marchMonth + 2) / 5 + d.day - 1

/-- The days from 0000-03-01 on. -/
def dayNumber (d : Date) : ℕ := yearStart d.marchYear + d.dayOfYear

variable {d : Date}

theorem one_le_daysIn (y m : ℕ) : 1 ≤ daysIn y m := by
  unfold daysIn
  split <;> try split_ifs
  all_goals omega

theorem daysIn_le (y m : ℕ) : daysIn y m ≤ 31 := by
  unfold daysIn
  split <;> try split_ifs
  all_goals omega

theorem daysIn_february (y : ℕ) : daysIn y 2 ≤ 29 := by
  rw [daysIn]
  split_ifs <;> decide

theorem Valid.next (h : d.Valid) : d.next.Valid := by
  obtain ⟨hyear, hmonth, hday⟩ := h
  unfold Date.next
  split_ifs with hd hm
  · exact ⟨hyear, hmonth, Nat.succ_pos _, hd⟩
  · exact ⟨hyear, ⟨Nat.succ_pos _, hm⟩, le_rfl, one_le_daysIn _ _⟩
  · exact ⟨Nat.le_succ_of_le hyear, ⟨le_rfl, Nat.one_le_ofNat⟩, le_rfl, one_le_daysIn _ _⟩

theorem Valid.dayNumber_next (h : d.Valid) : d.next.dayNumber = d.dayNumber + 1 := by
  obtain ⟨y, m, day⟩ := d
  obtain ⟨hyear, ⟨hm1, hm12⟩, hd1, hd2⟩ := h
  simp only at hyear hm1 hm12 hd1 hd2
  unfold Date.next
  simp only
  split_ifs with hd hm
  · simp only [dayNumber, dayOfYear, marchYear, marchMonth]
    omega
  · obtain rfl : day = daysIn y m := by omega
    rcases eq_or_ne m 2 with rfl | hm2
    · obtain ⟨y, rfl⟩ : ∃ x, y = x + 1 := ⟨y - 1, by omega⟩
      have hsucc := yearStart_succ y
      simp only [dayNumber, dayOfYear, marchYear, marchMonth]
      simp only [show (2 + 1 : ℕ) ≤ 2 ↔ False by decide, le_refl, if_true, if_false,
        Nat.add_sub_cancel]
      omega
    · simp only [dayNumber, dayOfYear, marchYear, marchMonth]
      interval_cases m <;> simp_all [daysIn]
  · obtain rfl : m = 12 := by omega
    obtain rfl : day = 31 := le_antisymm hd2 (not_lt.mp hd)
    simp [dayNumber, dayOfYear, marchYear, marchMonth]

theorem Valid.marchMonth_le (h : d.Valid) : d.marchMonth ≤ 11 := by
  obtain ⟨-, ⟨hm1, hm12⟩, -⟩ := h
  unfold marchMonth
  split_ifs <;> omega

/-- The month is found again from the day of the year. -/
theorem Valid.marchMonth_eq (h : d.Valid) : (5 * d.dayOfYear + 2) / 153 = d.marchMonth := by
  obtain ⟨y, m, day⟩ := d
  obtain ⟨-, ⟨hm1, hm12⟩, hd1, hd2⟩ := h
  simp only [dayOfYear, marchMonth] at *
  have hfeb := daysIn_february y
  interval_cases m <;> simp only [daysIn] at * <;> norm_num <;> omega

theorem Valid.dayOfYear_le (h : d.Valid) : d.dayOfYear ≤ 365 := by
  obtain ⟨y, m, day⟩ := d
  obtain ⟨-, ⟨hm1, hm12⟩, hd1, hd2⟩ := h
  simp only [dayOfYear, marchMonth] at *
  have hfeb := daysIn_february y
  have hle : daysIn y m ≤ 31 := daysIn_le y m
  split_ifs
  · rcases eq_or_ne m 2 with rfl | hm2 <;> omega
  · omega

/-- The day 365 of a year from March on is the 29th of the February after it. -/
theorem Valid.isLeap_of_dayOfYear (h : d.Valid) (hdoy : d.dayOfYear = 365) :
    isLeap (d.marchYear + 1) := by
  obtain ⟨y, m, day⟩ := d
  have hmonth := h.marchMonth_eq
  obtain ⟨hyear, ⟨hm1, hm12⟩, hd1, hd2⟩ := h
  rw [hdoy] at hmonth
  simp only [marchMonth, dayOfYear, marchYear] at *
  obtain rfl : m = 2 := by split_ifs at hmonth <;> omega
  have hsucc : y - 1 + 1 = y := by omega
  rw [if_pos le_rfl, hsucc]
  by_contra hleap
  rw [daysIn, if_neg hleap] at hd2
  norm_num at hdoy
  omega

theorem ofDay_valid (n : ℕ) : (ofDay n).Valid ∧ (ofDay n).dayNumber = n + 719468 := by
  induction n with
  | zero => exact ⟨⟨le_rfl, by decide, by decide⟩, by decide⟩
  | succ n ih =>
    rw [ofDay_succ]
    refine ⟨ih.1.next, ?_⟩
    rw [ih.1.dayNumber_next]
    omega

end Date

end XinuRpi4.Foundation
