import Mathlib.Tactic.IntervalCases
import Mathlib.Tactic.Common

/-!
# The Gregorian calendar

Days are counted from the first of January 1970. The year begins in March, so that the leap day
is its last one.

* `Calendar.days`, `Calendar.civil` — from a date to its day and back.
* `Calendar.civil_days` — a date that exists is the date of its day.
* `Calendar.days_mem` — the days of the years of four digits.
-/

namespace Calendar

def IsLeap (year : ℤ) : Prop := year % 4 = 0 ∧ (year % 100 ≠ 0 ∨ year % 400 = 0)

instance (year : ℤ) : Decidable (IsLeap year) := inferInstanceAs (Decidable (_ ∧ _))

def monthLength (year month : ℤ) : ℤ :=
  if month = 2 then if IsLeap year then 29 else 28
  else if month = 4 ∨ month = 6 ∨ month = 9 ∨ month = 11 then 30 else 31

/-- A date that exists. -/
structure IsDay (year month day : ℤ) : Prop where
  month_mem : 1 ≤ month ∧ month ≤ 12
  day_mem : 1 ≤ day ∧ day ≤ monthLength year month

/-- The day of a date. -/
def days (year month day : ℤ) : ℤ :=
  let y := if month ≤ 2 then year - 1 else year
  let yearOfEra := y % 400
  let dayOfYear := (153 * (month + (if 2 < month then -3 else 9)) + 2) / 5 + day - 1
  let dayOfEra := yearOfEra * 365 + yearOfEra / 4 - yearOfEra / 100 + dayOfYear
  y / 400 * 146097 + dayOfEra - 719468

/-- The year, the month and the day of the month. -/
def civil (n : ℤ) : ℤ × ℤ × ℤ :=
  let era := (n + 719468) / 146097
  let dayOfEra := (n + 719468) % 146097
  let yearOfEra := (dayOfEra - dayOfEra / 1460 + dayOfEra / 36524 - dayOfEra / 146096) / 365
  let dayOfYear := dayOfEra - (365 * yearOfEra + yearOfEra / 4 - yearOfEra / 100)
  let m := (5 * dayOfYear + 2) / 153
  let month := if m < 10 then m + 3 else m - 9
  (yearOfEra + era * 400 + (if month ≤ 2 then 1 else 0), month,
    dayOfYear - (153 * m + 2) / 5 + 1)

variable {y m d n : ℤ}

/-- The days of the years 0 to 9999. -/
theorem days_mem (hy : 0 ≤ y ∧ y < 10000) (hm : 1 ≤ m ∧ m ≤ 12) (hd : 1 ≤ d ∧ d ≤ 31) :
    -1000000 ≤ days y m d ∧ days y m d ≤ 3000000 := by
  unfold days
  dsimp only
  split <;> split <;> omega

theorem monthLength_le_thirtyOne (y m : ℤ) : monthLength y m ≤ 31 := by
  unfold monthLength
  split
  · split <;> decide
  · split <;> decide

section Inverse

/-- The days of the year that begins in March of the year `y`. -/
def yearLength (y : ℤ) : ℤ := if IsLeap (y + 1) then 366 else 365

/-- The leap day is the last day of a fourth year. It is the last day of a century at the end of
the era only. -/
theorem lt_yearLength (hy : 0 ≤ y ∧ y < 400) (hd : d < yearLength y) :
    d < 365 ∨ d = 365 ∧ y % 4 = 3 ∧ (y % 100 = 99 → y = 399) := by
  unfold yearLength at hd
  split at hd
  next hleap =>
    unfold IsLeap at hleap
    omega
  next => exact .inl hd

/-- The year of an era is found from the day. -/
theorem yearOfEra_eq (hy : 0 ≤ y ∧ y < 400) (hd₀ : 0 ≤ d) (hd : d < yearLength y)
    (hn : n = y * 365 + y / 4 - y / 100 + d) :
    (n - n / 1460 + n / 36524 - n / 146096) / 365 = y := by
  have hlt := lt_yearLength hy hd
  -- The centuries, the groups of four years, and the years that are left.
  obtain ⟨c, q, r, hc, hq, hr, rfl⟩ : ∃ c q r : ℤ, (0 ≤ c ∧ c ≤ 3) ∧ (0 ≤ q ∧ q ≤ 24) ∧
      (0 ≤ r ∧ r ≤ 3) ∧ y = 100 * c + 4 * q + r :=
    ⟨y / 100, y % 100 / 4, y % 4, by omega, by omega, by omega, by omega⟩
  have hsum : n = 36524 * c + 1461 * q + 365 * r + d := by omega
  by_cases hlast : n = 146096
  · omega
  · have hcentury : n / 36524 = c := by omega
    have hera : n / 146096 = 0 := by omega
    have hfour : n / 1460 = 25 * c + q + (24 * c + q + 365 * r + d) / 1460 := by omega
    have hleft : (24 * c + q + 365 * r + d) / 1460 = 0 ∧ d < 365 ∨
        (24 * c + q + 365 * r + d) / 1460 = 1 ∧ 0 < d := by omega
    omega

/-- The months of a year that begins in March, as the days before each of them. -/
theorem month_eq {length : ℤ} (hm : 0 ≤ m ∧ m ≤ 11) (hd : 1 ≤ d ∧ d ≤ length)
    (hlength : m < 11 → length ≤ (153 * (m + 1) + 2) / 5 - (153 * m + 2) / 5)
    (hlast : m = 11 → length ≤ 29) (hn : n = (153 * m + 2) / 5 + d - 1) :
    (5 * n + 2) / 153 = m ∧ n - (153 * m + 2) / 5 + 1 = d ∧ 0 ≤ n ∧
      (m < 11 → n < 337) ∧ (m = 11 → n = 336 + d) := by
  obtain ⟨h₀, h₁₁⟩ := hm
  interval_cases m <;> omega

theorem monthLength_le (hm : 1 ≤ m ∧ m ≤ 12) (hne : m ≠ 2) :
    monthLength y m ≤ (153 * (m + (if 2 < m then -3 else 9) + 1) + 2) / 5 -
      (153 * (m + (if 2 < m then -3 else 9)) + 2) / 5 := by
  obtain ⟨h₁, h₁₂⟩ := hm
  unfold monthLength
  rw [if_neg hne]
  interval_cases m <;> first | exact absurd rfl hne | decide

theorem monthLength_two : monthLength y 2 = if IsLeap y then 29 else 28 := if_pos rfl

/-- The leap years are the same in every era. -/
theorem isLeap_emod : IsLeap (y % 400 + 1) ↔ IsLeap (y + 1) := by
  unfold IsLeap
  omega

/-- **A date that exists is the date of its day.** -/
theorem civil_days (h : IsDay y m d) : civil (days y m d) = (y, m, d) := by
  obtain ⟨hm, hd⟩ := h
  have hmarch : 0 ≤ m + (if 2 < m then -3 else 9) ∧ m + (if 2 < m then -3 else 9) ≤ 11 := by
    split <;> omega
  -- counted from March, February is month 11
  have heleven : m + (if 2 < m then -3 else 9) = 11 ↔ m = 2 := by
    split <;> omega
  obtain ⟨hmonth, hday, hdoy₀, hdoy, hdoy₂⟩ := month_eq hmarch hd
    (fun hlt => monthLength_le hm fun h => absurd (heleven.mpr h) hlt.ne)
    (fun heq => by
      rw [heleven.mp heq, monthLength_two]
      split <;> omega) rfl
  set year := if m ≤ 2 then y - 1 else y with hfrom
  set march := m + (if 2 < m then -3 else 9) with hmarch_def
  set doy := (153 * march + 2) / 5 + d - 1 with hdoy_def
  -- the day lies in the year that starts in March
  have hlt : doy < yearLength (year % 400) := by
    unfold yearLength
    by_cases h₂ : m = 2
    · have hy : year + 1 = y := by
        rw [hfrom, if_pos h₂.le]
        omega
      have hd₂ := hd.2
      rw [h₂, monthLength_two] at hd₂
      rw [hdoy₂ (heleven.mpr h₂), if_congr isLeap_emod rfl rfl, hy]
      split at hd₂
      next hleap =>
        rw [if_pos hleap]
        omega
      next hleap =>
        rw [if_neg hleap]
        omega
    · have hsmall := hdoy (lt_of_le_of_ne hmarch.2 fun h => h₂ (heleven.mp h))
      split <;> omega
  have hy₀ : 0 ≤ year % 400 ∧ year % 400 < 400 := ⟨Int.emod_nonneg _ (by decide), by omega⟩
  have hdoe := lt_yearLength hy₀ hlt
  set doe := year % 400 * 365 + year % 400 / 4 - year % 400 / 100 + doy with hdoe_def
  have hyear := yearOfEra_eq hy₀ hdoy₀ hlt hdoe_def
  have hn : days y m d + 719468 = year / 400 * 146097 + doe := by
    show year / 400 * 146097 + doe - 719468 + 719468 = _
    omega
  have hera : (days y m d + 719468) / 146097 = year / 400 := by omega
  have hrest : (days y m d + 719468) % 146097 = doe := by omega
  have hdoy_eq : doe - (365 * (year % 400) + year % 400 / 4 - year % 400 / 100) = doy := by omega
  have hmonth_eq : (if march < 10 then march + 3 else march - 9) = m := by
    rw [hmarch_def]
    split <;> split <;> omega
  have hyear_eq : year % 400 + year / 400 * 400 + (if m ≤ 2 then 1 else 0) = y := by
    rw [hfrom]
    split <;> omega
  unfold civil
  simp only [hera, hrest, hyear, hdoy_eq, hmonth, hmonth_eq, hyear_eq, hday]

end Inverse

end Calendar
