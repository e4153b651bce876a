import Wireform.Proofs.Calendar
import Mathlib.Logic.Function.Iterate
import Mathlib.Tactic.SplitIfs

/-!
# Counted days

The number of a day is what counting from the first of January of the year 1 on arrives at, going from each
date to the next one by the lengths of months and years. So the date of a day and the day of a date rest on
the calendar and on no formula.
-/
namespace Wireform.Calendar

theorem daysOf_monthLengths (leap : Bool) : daysOf (monthLengths leap) = if leap then 366 else 365 := by
  cases leap <;> rfl

/-- A year is as long as its months together. -/
theorem daysBeforeYear_succ {year : Nat} (h : 1 ≤ year) :
    daysBeforeYear (year + 1) = daysBeforeYear year + daysOf (monthLengths (isLeap year)) := by
  obtain ⟨past, rfl⟩ := Nat.exists_eq_add_of_le' h
  have hleap : isLeap (past + 1) = true ↔
      (past + 1) % 4 = 0 ∧ ((past + 1) % 100 ≠ 0 ∨ (past + 1) % 400 = 0) := by
    simp [isLeap]
  have four : (past + 1) / 4 = past / 4 + if (past + 1) % 4 = 0 then 1 else 0 := by
    split <;> omega
  have hundred : (past + 1) / 100 = past / 100 + if (past + 1) % 100 = 0 then 1 else 0 := by
    split <;> omega
  have fourHundred : (past + 1) / 400 = past / 400 + if (past + 1) % 400 = 0 then 1 else 0 := by
    split <;> omega
  have hle : past / 100 ≤ past / 4 := Nat.div_le_div_left (by decide) (by decide)
  rw [daysOf_monthLengths]
  simp only [daysBeforeYear, Nat.add_sub_cancel, four, hundred, fourHundred, hleap]
  generalize past / 4 = a at *
  generalize past / 100 = b at *
  generalize past / 400 = c at *
  clear four hundred fourHundred hleap
  split_ifs <;> omega

theorem daysBeforeYear_le {year later : Nat} (h : 1 ≤ year) (hle : year ≤ later) :
    daysBeforeYear year ≤ daysBeforeYear later := by
  induction hle with
  | refl => exact Nat.le_refl _
  | step hle ih =>
      rw [daysBeforeYear_succ (Nat.le_trans h hle)]
      exact Nat.le_add_right_of_le ih

theorem daysBeforeMonth_succ (leap : Bool) {month : Nat} (h : 1 ≤ month) (hle : month ≤ 12) :
    daysBeforeMonth leap (month + 1) = daysBeforeMonth leap month + daysInMonth leap month := by
  have hall : ∀ leap, ∀ month < 13, 1 ≤ month →
      daysBeforeMonth leap (month + 1) = daysBeforeMonth leap month + daysInMonth leap month := by decide
  exact hall leap month (by omega) h

/-- A valid date by its bounds. -/
theorem Civil.valid_iff {c : Civil} : c.valid = true ↔
    (1 ≤ c.year ∧ c.year ≤ 9999) ∧ 1 ≤ c.day ∧ c.day ≤ daysInMonth (isLeap c.year) c.month := by
  simp [Civil.valid, and_assoc]

theorem month_bounds {leap : Bool} {month day : Nat} (h : 1 ≤ day) (hle : day ≤ daysInMonth leap month) :
    1 ≤ month ∧ month ≤ 12 := by
  constructor
  · by_contra hzero
    rw [show month = 0 by omega, daysInMonth, if_pos rfl] at hle
    omega
  · by_contra hlarge
    rw [daysInMonth_eq_zero leap (by omega)] at hle
    omega

/-- A day of a year is given by its month and its place in the month. -/
theorem dayOfYear_lt {leap : Bool} {month day : Nat} (h : 1 ≤ day) (hle : day ≤ daysInMonth leap month) :
    daysBeforeMonth leap month + (day - 1) < daysOf (monthLengths leap) := by
  have hall : ∀ leap, ∀ month < 13, daysBeforeMonth leap (month + 1) ≤ daysOf (monthLengths leap) := by decide
  obtain ⟨hpos, hmonth⟩ := month_bounds h hle
  have htotal := hall leap month (by omega)
  rw [daysBeforeMonth_succ leap hpos hmonth] at htotal
  omega

/-- Walking over the lengths of months finds the month again. -/
theorem splitMonth_daysOf (lengths : List Nat) (month : Nat) {i rest : Nat} (h : rest < lengths[i]?.getD 0) :
    splitMonth lengths month (daysOf (lengths.take i) + rest) = (month + i, rest) := by
  induction lengths generalizing month i with
  | nil => simp at h
  | cons length lengths ih =>
      cases i with
      | zero =>
          have hlt : rest < length := by simpa using h
          simp [splitMonth, hlt]
      | succ i =>
          rw [List.take_succ_cons, daysOf_cons, splitMonth, if_neg (by omega)]
          rw [show length + daysOf (lengths.take i) + rest - length = daysOf (lengths.take i) + rest by omega]
          rw [ih (month + 1) (by simpa using h), Nat.add_right_comm, Nat.add_assoc month i 1]

/-- A day lies in one year only. -/
theorem year_unique {year other rest rest' : Nat} (hyear : 1 ≤ year) (hother : 1 ≤ other)
    (hrest : rest < daysOf (monthLengths (isLeap year)))
    (hrest' : rest' < daysOf (monthLengths (isLeap other)))
    (h : daysBeforeYear year + rest = daysBeforeYear other + rest') : year = other ∧ rest = rest' := by
  have hnext := daysBeforeYear_succ hyear
  have hnext' := daysBeforeYear_succ hother
  obtain hlt | rfl | hlt := Nat.lt_trichotomy year other
  · have := daysBeforeYear_le (Nat.le_add_left 1 year) hlt
    omega
  · exact ⟨rfl, by omega⟩
  · have := daysBeforeYear_le (Nat.le_add_left 1 other) hlt
    omega

theorem Civil.valid.ordinal_lt {c : Civil} (h : c.valid = true) : c.ordinal < dayCount := by
  obtain ⟨⟨hpos, hyear⟩, hday, hle⟩ := Civil.valid_iff.mp h
  have hrest := dayOfYear_lt hday hle
  have hnext := daysBeforeYear_succ hpos
  have hlast : daysBeforeYear (c.year + 1) ≤ daysBeforeYear 10000 := daysBeforeYear_le (by omega) (by omega)
  have hcount : daysBeforeYear 10000 = dayCount := rfl
  simp only [Civil.ordinal]
  omega

/-- The day of a date has that date. -/
theorem civil_ordinal {c : Civil} (h : c.valid = true) : civil c.ordinal = c := by
  obtain ⟨⟨hpos, hyear⟩, hday, hle⟩ := Civil.valid_iff.mp h
  obtain ⟨hmonth, -⟩ := month_bounds hday hle
  obtain ⟨hpos', -, hsum, hrest⟩ := splitYear_spec (Civil.valid.ordinal_lt h)
  have hordinal : c.ordinal =
      daysBeforeYear c.year + (daysBeforeMonth (isLeap c.year) c.month + (c.day - 1)) :=
    Nat.add_assoc ..
  obtain ⟨hsame, hrest⟩ := year_unique hpos' hpos hrest (dayOfYear_lt hday hle) (hsum.trans hordinal)
  have hlength : c.day - 1 < ((monthLengths (isLeap c.year))[c.month - 1]?).getD 0 := by
    rw [daysInMonth, if_neg (by omega)] at hle
    omega
  have hsplit : splitYear c.ordinal = (c.year, daysBeforeMonth (isLeap c.year) c.month + (c.day - 1)) :=
    Prod.ext hsame hrest
  simp only [civil, hsplit, daysBeforeMonth, splitMonth_daysOf _ _ hlength]
  rw [Nat.add_sub_cancel' hmonth, Nat.sub_add_cancel hday]

/-- The day after a date. -/
def Civil.next (c : Civil) : Civil :=
  if c.day < daysInMonth (isLeap c.year) c.month then ⟨c.year, c.month, c.day + 1⟩
  else if c.month < 12 then ⟨c.year, c.month + 1, 1⟩
  else ⟨c.year + 1, 1, 1⟩

/-- The date that is reached from the first of January of the year 1 after a number of days. -/
def Civil.after (days : Nat) : Civil :=
  Civil.next^[days] ⟨1, 1, 1⟩

theorem Civil.after_succ (days : Nat) : Civil.after (days + 1) = (Civil.after days).next :=
  Function.iterate_succ_apply' ..

theorem daysInMonth_pos {leap : Bool} {month : Nat} (h : 1 ≤ month) (hle : month ≤ 12) :
    1 ≤ daysInMonth leap month := by
  have hall : ∀ leap, ∀ month < 13, 1 ≤ month → 1 ≤ daysInMonth leap month := by decide
  exact hall leap month (by omega) h

theorem Civil.next_of_lt {c : Civil} (h : c.day < daysInMonth (isLeap c.year) c.month) :
    c.next = ⟨c.year, c.month, c.day + 1⟩ :=
  if_pos h

theorem Civil.next_of_month {c : Civil} (h : ¬ c.day < daysInMonth (isLeap c.year) c.month)
    (hmonth : c.month < 12) : c.next = ⟨c.year, c.month + 1, 1⟩ := by
  rw [Civil.next, if_neg h, if_pos hmonth]

theorem Civil.next_of_year {c : Civil} (h : ¬ c.day < daysInMonth (isLeap c.year) c.month)
    (hmonth : ¬ c.month < 12) : c.next = ⟨c.year + 1, 1, 1⟩ := by
  rw [Civil.next, if_neg h, if_neg hmonth]

/-- The day after a date is counted one higher. -/
theorem Civil.ordinal_next {c : Civil} (h : c.valid = true) : c.next.ordinal = c.ordinal + 1 := by
  obtain ⟨⟨hpos, -⟩, hday, hle⟩ := Civil.valid_iff.mp h
  obtain ⟨hmonth, hmonth'⟩ := month_bounds hday hle
  have hsucc := daysBeforeMonth_succ (isLeap c.year) hmonth hmonth'
  by_cases hlast : c.day < daysInMonth (isLeap c.year) c.month
  · simp only [Civil.next_of_lt hlast, Civil.ordinal]
    omega
  · by_cases hdecember : c.month < 12
    · simp only [Civil.next_of_month hlast hdecember, Civil.ordinal, hsucc]
      omega
    · have hfirst : daysBeforeMonth (isLeap (c.year + 1)) 1 = 0 := rfl
      have hyear : daysBeforeMonth (isLeap c.year) (12 + 1) = daysOf (monthLengths (isLeap c.year)) := rfl
      have heq : c.month = 12 := by omega
      rw [heq] at hle hlast hsucc
      rw [Civil.next_of_year (heq ▸ hlast) hdecember]
      simp only [Civil.ordinal, daysBeforeYear_succ hpos, hfirst, heq, ← hyear, hsucc]
      omega

/-- Only the last day of the calendar has no valid date after it. -/
theorem Civil.valid_next {c : Civil} (h : c.valid = true) (hcount : c.ordinal + 1 < dayCount) :
    c.next.valid = true := by
  obtain ⟨⟨hpos, hyear⟩, hday, hle⟩ := Civil.valid_iff.mp h
  obtain ⟨hmonth, hmonth'⟩ := month_bounds hday hle
  by_cases hlast : c.day < daysInMonth (isLeap c.year) c.month
  · rw [Civil.next_of_lt hlast]
    exact Civil.valid_iff.mpr ⟨⟨hpos, hyear⟩, Nat.le_add_left 1 c.day, hlast⟩
  · by_cases hdecember : c.month < 12
    · rw [Civil.next_of_month hlast hdecember]
      exact Civil.valid_iff.mpr ⟨⟨hpos, hyear⟩, Nat.le_refl 1, daysInMonth_pos (Nat.le_add_left 1 c.month) hdecember⟩
    · -- After 9999-12-31 the count of days would be complete.
      have hnext := Civil.ordinal_next h
      rw [Civil.next_of_year hlast hdecember] at hnext ⊢
      have hroom : c.year ≠ 9999 := by
        intro heq
        have hfull : (⟨9999 + 1, 1, 1⟩ : Civil).ordinal = dayCount := rfl
        rw [heq, hfull] at hnext
        omega
      have hyear' : c.year + 1 ≤ 9999 := by omega
      exact Civil.valid_iff.mpr ⟨⟨Nat.le_add_left 1 c.year, hyear'⟩, Nat.le_refl 1,
        daysInMonth_pos (Nat.le_refl 1) (show 1 ≤ 12 by decide)⟩

/-- Counting days from the first one on gives the date of each. -/
theorem Civil.after_eq_civil {n : Nat} (hn : n < dayCount) : Civil.after n = civil n := by
  induction n with
  | zero => rfl
  | succ n ih =>
      have hlt : n < dayCount := Nat.lt_of_succ_lt hn
      have hvalid := valid_civil hlt
      have hordinal := ordinal_civil hlt
      rw [Civil.after_succ, ih hlt, ← civil_ordinal (Civil.valid_next hvalid (hordinal.symm ▸ hn)),
        Civil.ordinal_next hvalid, hordinal]

end Wireform.Calendar
