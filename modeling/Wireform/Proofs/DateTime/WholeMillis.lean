import Wireform.DateTime.Iso

/-!
# Times in whole milliseconds

Every reader of dates gives a time in UTC that is a whole number of milliseconds, and such a time comes back
from its count of milliseconds.
-/
namespace Wireform.DateTime

/-- A time in UTC without a fraction of a millisecond. -/
structure WholeMillis (t : DateTime) : Prop where
  utc : t.offset = some .utc
  whole : t.micro % 1000 = 0

theorem ofTicks?_eq_some {ticks : Int} {offset : Option Offset} {t : DateTime}
    (h : ofTicks? ticks offset = some t) : (t.ticks : Int) = ticks ∧ t.offset = offset := by
  unfold ofTicks? at h
  split at h
  · rename_i hbound
    obtain rfl := Option.some.inj h
    exact ⟨Int.toNat_of_nonneg hbound.1, rfl⟩
  · cases h

/-- A time is given by its ticks and its offset. -/
theorem eq_of_ticks {t u : DateTime} (hticks : t.ticks = u.ticks) (hoffset : t.offset = u.offset) :
    t = u := by
  cases t
  cases u
  simp_all

theorem ofTicks?_ticks (t : DateTime) : ofTicks? t.ticks t.offset = some t := by
  have h : 0 ≤ (t.ticks : Int) ∧ (t.ticks : Int).toNat < microsOfCalendar :=
    ⟨Int.natCast_nonneg _, t.inCalendar⟩
  simp only [ofTicks?, dif_pos h]
  rfl

theorem instant_of_utc {t : DateTime} (h : t.offset = some .utc) : t.instant = t.ticks := by
  simp [instant, h, Offset.utc]

theorem toUtc?_of_utc {t : DateTime} (h : t.offset = some .utc) : t.toUtc? = some t := by
  rw [toUtc?, instant_of_utc h, ← h, ofTicks?_ticks]

theorem floorMillis_of_whole {t : DateTime} (h : t.micro % 1000 = 0) : t.floorMillis = t := by
  simp only [micro] at h
  apply eq_of_ticks
  · simp only [floorMillis]
    omega
  · rfl

/-- A time read from a count of milliseconds. -/
theorem WholeMillis.of_ofMillis? {millis : Int} {t : DateTime} (h : ofMillis? millis = some t) :
    t.WholeMillis := by
  obtain ⟨hticks, hoffset⟩ := ofTicks?_eq_some h
  refine ⟨hoffset, ?_⟩
  simp only [epoch, microsPerDay] at hticks
  simp only [micro]
  omega

/-- A time read from an ISO text. -/
theorem WholeMillis.of_ofIso? {cs : List Char} {t : DateTime} (h : ofIso? cs = some t) :
    t.WholeMillis := by
  unfold ofIso? at h
  split at h
  · cases h
  · obtain ⟨u, hu, rfl⟩ := Option.map_eq_some_iff.mp h
    obtain ⟨-, hoffset⟩ := ofTicks?_eq_some hu
    refine ⟨hoffset, ?_⟩
    simp only [floorMillis, micro]
    omega

/-- The milliseconds of a time are those that it was read from. -/
theorem millis_of_ofMillis? {millis : Int} {t : DateTime} (h : ofMillis? millis = some t) :
    t.millis = millis := by
  obtain ⟨hticks, hoffset⟩ := ofTicks?_eq_some h
  rw [DateTime.millis, instant_of_utc hoffset, hticks]
  rw [Int.fdiv_eq_ediv_of_nonneg _ (by decide)]
  omega

/-- The milliseconds of the calendar are far fewer than what a double tells apart. -/
theorem natAbs_lt_of_ofMillis? {millis : Int} {t : DateTime} (h : ofMillis? millis = some t) :
    millis.natAbs < 2 ^ 53 := by
  obtain ⟨hticks, -⟩ := ofTicks?_eq_some h
  have hbound := t.inCalendar
  simp only [microsOfCalendar, Calendar.dayCount, microsPerDay] at hbound
  simp only [epoch, microsPerDay] at hticks
  omega

end Wireform.DateTime
