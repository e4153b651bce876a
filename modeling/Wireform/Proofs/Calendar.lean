import Wireform.Calendar

/-!
# Days and dates

The civil date of a day and the day of a civil date are inverse to each other on the whole calendar. A day is
taken apart into cycles of 400, 100, 4 and 1 years and the days that are left; the month is found by walking
over the lengths of the months.
-/
namespace Wireform.Calendar

/-- A year counted in cycles of 400, 100 and 4 years and single years, none of them complete but the first. -/
structure Cycles where
  fourCenturies : Nat
  centuries : Nat
  fourYears : Nat
  years : Nat
  centuries_le : centuries ≤ 3
  fourYears_le : fourYears ≤ 24
  years_le : years ≤ 3

namespace Cycles

def year (c : Cycles) : Nat :=
  c.fourCenturies * 400 + c.centuries * 100 + c.fourYears * 4 + c.years + 1

def days (c : Cycles) : Nat :=
  c.fourCenturies * 146097 + c.centuries * 36524 + c.fourYears * 1461 + c.years * 365

/-- The fourth year of a cycle is a leap year, unless it ends a century that ends no four of them. -/
def EndsLong (c : Cycles) : Prop :=
  c.years = 3 ∧ (c.fourYears ≠ 24 ∨ c.centuries = 3)

theorem daysBeforeYear_year (c : Cycles) : daysBeforeYear c.year = c.days := by
  obtain ⟨a, b, f, y, hb, hf, hy⟩ := c
  have four : (a * 400 + b * 100 + f * 4 + y) / 4 = a * 100 + b * 25 + f := by omega
  have hundred : (a * 400 + b * 100 + f * 4 + y) / 100 = a * 4 + b := by omega
  have fourHundred : (a * 400 + b * 100 + f * 4 + y) / 400 = a := by omega
  simp only [daysBeforeYear, year, days, Nat.add_sub_cancel, four, hundred, fourHundred]
  omega

theorem isLeap_year (c : Cycles) : isLeap c.year = true ↔ c.EndsLong := by
  obtain ⟨a, b, f, y, hb, hf, hy⟩ := c
  have leap : isLeap (a * 400 + b * 100 + f * 4 + y + 1) = true ↔
      (a * 400 + b * 100 + f * 4 + y + 1) % 4 = 0 ∧
        ((a * 400 + b * 100 + f * 4 + y + 1) % 100 ≠ 0 ∨
          (a * 400 + b * 100 + f * 4 + y + 1) % 400 = 0) := by
    simp [isLeap]
  simp only [year, EndsLong]
  rw [leap]
  omega

end Cycles

/-- A day is the first of its year and less than a year after it. -/
theorem splitYear_cycles (n : Nat) :
    ∃ c : Cycles, ∃ rest, splitYear n = (c.year, rest) ∧ n = c.days + rest ∧
      (rest < 365 ∨ rest = 365 ∧ c.EndsLong) := by
  refine ⟨⟨n / 146097, min (n % 146097 / 36524) 3,
    (n % 146097 - min (n % 146097 / 36524) 3 * 36524) / 1461,
    min ((n % 146097 - min (n % 146097 / 36524) 3 * 36524) % 1461 / 365) 3, ?_, ?_, ?_⟩, _, rfl, ?_, ?_⟩
  · omega
  · omega
  · omega
  · simp only [Cycles.days]
    omega
  · simp only [Cycles.EndsLong]
    omega

theorem splitYear_spec {n : Nat} (hn : n < dayCount) :
    1 ≤ (splitYear n).1 ∧ (splitYear n).1 ≤ 9999 ∧
      daysBeforeYear (splitYear n).1 + (splitYear n).2 = n ∧
      (splitYear n).2 < daysOf (monthLengths (isLeap (splitYear n).1)) := by
  obtain ⟨c, rest, hs, hd, hr⟩ := splitYear_cycles n
  have hsum : ∀ leap, daysOf (monthLengths leap) = if leap then 366 else 365 := by decide
  rw [hs]
  refine ⟨?_, ?_, ?_, ?_⟩
  · simp only [Cycles.year]
    omega
  · have := c.centuries_le
    have := c.fourYears_le
    have := c.years_le
    simp only [Cycles.days, dayCount] at hd hn
    simp only [Cycles.year]
    omega
  · rw [c.daysBeforeYear_year]
    exact hd.symm
  · rw [hsum]
    rcases hr with hr | ⟨hr, hlong⟩
    · split <;> omega
    · rw [if_pos (c.isLeap_year.mpr hlong)]
      omega

@[simp] theorem daysOf_nil : daysOf [] = 0 := rfl

@[simp] theorem daysOf_cons (length : Nat) (lengths : List Nat) :
    daysOf (length :: lengths) = length + daysOf lengths := rfl

/-- Walking over the lengths of months stops at the month that a day of the year lies in. -/
theorem splitMonth_spec (lengths : List Nat) (month rest : Nat) (h : rest < daysOf lengths) :
    ∃ i r, splitMonth lengths month rest = (month + i, r) ∧ r < lengths[i]?.getD 0 ∧
      daysOf (lengths.take i) + r = rest := by
  induction lengths generalizing month rest with
  | nil => simp at h
  | cons length lengths ih =>
      by_cases hlt : rest < length
      · exact ⟨0, rest, by simp [splitMonth, hlt], by simpa using hlt, by simp⟩
      · obtain ⟨i, r, hs, hr, ht⟩ := ih (month + 1) (rest - length) (by
          simp only [daysOf_cons] at h
          omega)
        refine ⟨i + 1, r, ?_, by simpa using hr, ?_⟩
        · rw [splitMonth, if_neg hlt, hs]
          congr 1
          omega
        · simp only [List.take_succ_cons, daysOf_cons]
          omega

theorem civil_eq {n : Nat} (hn : n < dayCount) :
    ∃ i r, civil n = ⟨(splitYear n).1, i + 1, r + 1⟩ ∧
      r < ((monthLengths (isLeap (splitYear n).1))[i]?).getD 0 ∧
      daysOf ((monthLengths (isLeap (splitYear n).1)).take i) + r = (splitYear n).2 := by
  obtain ⟨i, r, hs, hr, ht⟩ := splitMonth_spec _ 1 _ (splitYear_spec hn).2.2.2
  refine ⟨i, r, ?_, hr, ht⟩
  simp only [civil, hs, Nat.add_comm 1 i]

theorem valid_civil {n : Nat} (hn : n < dayCount) : (civil n).valid = true := by
  obtain ⟨i, r, hc, hr, -⟩ := civil_eq hn
  obtain ⟨h₁, h₂, -, -⟩ := splitYear_spec hn
  simp [hc, Civil.valid, daysInMonth, h₁, h₂]
  omega

theorem ordinal_civil {n : Nat} (hn : n < dayCount) : (civil n).ordinal = n := by
  obtain ⟨i, r, hc, -, ht⟩ := civil_eq hn
  have hy := (splitYear_spec hn).2.2.1
  simp only [hc, Civil.ordinal, daysBeforeMonth, Nat.add_sub_cancel]
  omega

theorem daysInMonth_le (leap : Bool) (month : Nat) : daysInMonth leap month ≤ 31 := by
  have small : ∀ leap, ∀ month < 13, daysInMonth leap month ≤ 31 := by decide
  by_cases h : month < 13
  · exact small leap month h
  · simp [daysInMonth, monthLengths, show month ≠ 0 by omega,
      show 12 ≤ month - 1 by omega]

theorem daysInMonth_eq_zero (leap : Bool) {month : Nat} (h : 12 < month) :
    daysInMonth leap month = 0 := by
  simp [daysInMonth, monthLengths, show month ≠ 0 by omega, show 12 ≤ month - 1 by omega]

/-- The parts of a date have at most four, two and two digits. -/
theorem Civil.valid.bounds {c : Civil} (h : c.valid = true) :
    c.year ≤ 9999 ∧ c.month ≤ 12 ∧ c.day ≤ 31 := by
  simp only [Civil.valid, Bool.and_eq_true, decide_eq_true_eq] at h
  obtain ⟨⟨⟨-, hy⟩, hpos⟩, hd⟩ := h
  refine ⟨hy, Nat.le_of_not_lt fun hm => ?_, Nat.le_trans hd (daysInMonth_le ..)⟩
  rw [daysInMonth_eq_zero _ hm] at hd
  omega

end Wireform.Calendar
