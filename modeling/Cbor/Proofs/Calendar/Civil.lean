import Cbor.Calendar.Civil

namespace Cbor.Civil

/-- The year of an era of 400 years, counted from March, in which the day `d` of the era lies. -/
def yearOfEra (d : Int) : Int := (d - d / 1460 + d / 36524 - d / 146096) / 365

def dayOfYear (d : Int) : Int := d - (365 * yearOfEra d + yearOfEra d / 4 - yearOfEra d / 100)

def monthFromMarch (day : Int) : Int := (5 * day + 2) / 153

def monthOfYear (m : Int) : Int := if m < 10 then m + 3 else m - 9

section

variable {d : Int} (hl : 0 ≤ d) (hh : d < 146097)

include hl hh

theorem yearOfEra_bounds : 0 ≤ yearOfEra d ∧ yearOfEra d ≤ 399 := by
  unfold yearOfEra
  omega

theorem century_yearOfEra : yearOfEra d / 100 = d / 36524 - d / 146096 := by
  have hy : yearOfEra d = (d - d / 1460 + d / 36524 - d / 146096) / 365 := rfl
  have he : d / 36524 = 0 ∨ d / 36524 = 1 ∨ d / 36524 = 2 ∨ d / 36524 = 3 ∨ d / 36524 = 4 := by
    omega
  have hb : d / 1460 ≤ 25 * (d / 36524) ∨ 25 * (d / 36524) + 1 ≤ d / 1460 := by omega
  have ht : d / 1460 ≤ 25 * (d / 36524) + 24 ∨ 25 * (d / 36524) + 25 ≤ d / 1460 := by omega
  rcases he with he | he | he | he | he <;> rw [he] at hb ht <;> omega

theorem olympiad_yearOfEra : yearOfEra d / 4 ≤ d / 1460 ∧ d / 1460 ≤ yearOfEra d / 4 + 1 := by
  have hy : yearOfEra d = (d - d / 1460 + d / 36524 - d / 146096) / 365 := rfl
  have hc := century_yearOfEra hl hh
  have hb : 24 * (yearOfEra d / 100) ≤ d / 1460 := by omega
  omega

theorem dayOfYear_bounds : 0 ≤ dayOfYear d ∧ dayOfYear d ≤ 365 := by
  have hy : yearOfEra d = (d - d / 1460 + d / 36524 - d / 146096) / 365 := rfl
  have hc := century_yearOfEra hl hh
  have hq := olympiad_yearOfEra hl hh
  unfold dayOfYear
  omega

theorem isLeapYear_of_dayOfYear (h : dayOfYear d = 365) (era : Int) :
    isLeapYear (yearOfEra d + era * 400 + 1) = true := by
  have hy : yearOfEra d = (d - d / 1460 + d / 36524 - d / 146096) / 365 := rfl
  have hc := century_yearOfEra hl hh
  have hq := olympiad_yearOfEra hl hh
  unfold dayOfYear at h
  have hlast : yearOfEra d = 4 * (yearOfEra d / 4) + 3 := by omega
  have hleap : (yearOfEra d + 1) % 4 = 0 ∧
      ((yearOfEra d + 1) % 100 ≠ 0 ∨ (yearOfEra d + 1) % 400 = 0) := by omega
  simp only [isLeapYear, Bool.and_eq_true, Bool.or_eq_true, decide_eq_true_eq]
  omega

end

theorem month_day_valid {q year : Int} (hl : 0 ≤ q) (hh : q ≤ 365)
    (hleap : q = 365 → isLeapYear year = true) :
    let m := monthFromMarch q
    let month := monthOfYear m
    let day := q - (153 * m + 2) / 5 + 1
    (1 ≤ month ∧ month ≤ 12) ∧ 1 ≤ day ∧ day ≤ daysInMonth year month := by
  intro m month day
  have hm : m = (5 * q + 2) / 153 := rfl
  have hmonth : month = if m < 10 then m + 3 else m - 9 := rfl
  have hday : day = q - (153 * m + 2) / 5 + 1 := rfl
  clear_value m month day
  refine ⟨by omega, by omega, ?_⟩
  unfold daysInMonth
  split
  · split
    · omega
    · have hq : q ≠ 365 := fun h ↦ absurd (hleap h) ‹_›
      omega
  split
  · omega
  · omega

def ofEra (era d : Int) : Civil :=
  let q := dayOfYear d
  let m := monthFromMarch q
  let month := monthOfYear m
  { year := yearOfEra d + era * 400 + if month ≤ 2 then 1 else 0
    month
    day := q - (153 * m + 2) / 5 + 1 }

theorem ofDayNumber_eq (n : Int) :
    ofDayNumber n = ofEra ((n + 719468) / 146097) ((n + 719468) % 146097) := rfl

theorem isValid_ofEra {d : Int} (hl : 0 ≤ d) (hh : d < 146097) (era : Int) :
    (ofEra era d).isValid = true := by
  obtain ⟨hq, hq'⟩ := dayOfYear_bounds hl hh
  have hleap : dayOfYear d = 365 → isLeapYear (ofEra era d).year = true := by
    intro h
    have hm : monthOfYear (monthFromMarch (dayOfYear d)) ≤ 2 := by rw [h]; decide
    simp only [ofEra, if_pos hm]
    exact isLeapYear_of_dayOfYear hl hh h era
  have hv := month_day_valid hq hq' hleap
  simp only [isValid, Bool.and_eq_true, decide_eq_true_eq, and_assoc]
  exact ⟨hv.1.1, hv.1.2, hv.2⟩

theorem isValid_ofDayNumber (n : Int) : (ofDayNumber n).isValid = true :=
  isValid_ofEra (Int.emod_nonneg _ (by decide)) (Int.emod_lt_of_pos _ (by decide)) _

theorem dayNumber_ofEra {d : Int} (hl : 0 ≤ d) (hh : d < 146097) (era : Int) :
    (ofEra era d).dayNumber = era * 146097 + d - 719468 := by
  obtain ⟨hq, hq'⟩ := dayOfYear_bounds hl hh
  obtain ⟨hy, hy'⟩ := yearOfEra_bounds hl hh
  have hday : dayOfYear d = d - (365 * yearOfEra d + yearOfEra d / 4 - yearOfEra d / 100) := rfl
  have hm : monthFromMarch (dayOfYear d) = (5 * dayOfYear d + 2) / 153 := rfl
  have h4 : (yearOfEra d + era * 400) / 4 = yearOfEra d / 4 + era * 100 := by omega
  have h100 : (yearOfEra d + era * 400) / 100 = yearOfEra d / 100 + era * 4 := by omega
  have h400 : (yearOfEra d + era * 400) / 400 = era := by omega
  by_cases h : monthFromMarch (dayOfYear d) < 10
  · have hmonth : monthOfYear (monthFromMarch (dayOfYear d)) =
        monthFromMarch (dayOfYear d) + 3 := if_pos h
    have h2 : ¬ monthFromMarch (dayOfYear d) + 3 ≤ 2 := by omega
    simp only [dayNumber, ofEra, hmonth, if_neg h2, Int.add_zero, Int.add_sub_cancel, h4, h100,
      h400]
    omega
  · have hmonth : monthOfYear (monthFromMarch (dayOfYear d)) =
        monthFromMarch (dayOfYear d) - 9 := if_neg h
    have h2 : monthFromMarch (dayOfYear d) - 9 ≤ 2 := by omega
    simp only [dayNumber, ofEra, hmonth, if_pos h2, Int.add_sub_cancel, Int.sub_add_cancel, h4,
      h100, h400]
    omega

theorem dayNumber_ofDayNumber (n : Int) : (ofDayNumber n).dayNumber = n := by
  rw [ofDayNumber_eq, dayNumber_ofEra (Int.emod_nonneg _ (by decide))
    (Int.emod_lt_of_pos _ (by decide))]
  omega

end Cbor.Civil
