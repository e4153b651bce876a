import Wireform.Proofs.DateTime.IsoText
import Wireform.Proofs.Double.Whole

/-!
# What lenient readers give

A lenient reader never gives something that is not a number, and every time that it gives is in UTC and a
whole number of milliseconds. A time read from milliseconds is read again from its milliseconds.
-/
namespace Wireform

namespace Double

theorem isNaN_nearest (negative : Bool) (num den : Nat) : (nearest negative num den).isNaN = false := by
  have hparts (mantissa : Nat) (exponent : Int) : (ofParts negative mantissa exponent).isNaN = false := by
    unfold ofParts
    split <;> rfl
  unfold nearest
  split
  · rfl
  · simp only
    split <;> exact hparts _ _

theorem isNaN_ofDecimal (negative : Bool) (digits : Nat) (exponent : Int) :
    (ofDecimal negative digits exponent).isNaN = false := by
  unfold ofDecimal
  split
  · rfl
  · split
    · rfl
    · split
      · rfl
      · exact isNaN_nearest ..

/-- A text never reads as something that is not a number. -/
theorem isNaN_of_takeNumber? {cs rest : List Char} {x : Double} (h : takeNumber? cs = some (x, rest)) :
    x.isNaN = false := by
  simp only [takeNumber?, takeUnsigned?] at h
  split at h
  · cases h
    rfl
  · split at h
    · cases h
    · cases h
      exact isNaN_ofDecimal ..

end Double

namespace Value

theorem isNaN_of_toDouble? {v : Value} {x : Double} (h : v.toDouble? = some x) : x.isNaN = false := by
  have htext {cs : List Char} (h : readFloat? cs = some x) : x.isNaN = false := by
    obtain ⟨⟨y, rest⟩, hy, rfl⟩ := Option.map_eq_some_iff.mp h
    exact Double.isNaN_of_takeNumber? hy
  cases v with
  | float y =>
      simp only [toDouble?] at h
      split at h
      · cases h
      · rename_i hy
        cases h
        simpa using hy
  | _ => exact htext h

/-- A time read from a number is read from a whole number of milliseconds. -/
theorem exists_ofMillis?_of_double {x : Double} {t : DateTime} (h : DateTime.ofMillisDouble? x = some t) :
    ∃ millis, DateTime.ofMillis? millis = some t := by
  unfold DateTime.ofMillisDouble? at h
  split at h
  · cases h
  · rename_i millis _
    exact ⟨millis, h⟩

theorem exists_ofMillis?_of_seconds {v : Value} {t : DateTime} (h : v.secondsToDateTime? = some t) :
    ∃ millis, DateTime.ofMillis? millis = some t := by
  unfold secondsToDateTime? at h
  split at h
  · cases h
  · exact exists_ofMillis?_of_double h

theorem exists_ofMillis?_of_millis {v : Value} {t : DateTime} (h : v.millisToDateTime? = some t) :
    ∃ millis, DateTime.ofMillis? millis = some t := by
  unfold millisToDateTime? at h
  split at h
  · cases h
  · exact exists_ofMillis?_of_double h

theorem wholeMillis_of_iso {v : Value} {t : DateTime} (h : v.isoToDateTime? = some t) : t.WholeMillis := by
  unfold isoToDateTime? at h
  split at h
  · exact .of_ofIso? h
  · cases h

/-- A time read from milliseconds is read again from its milliseconds. -/
theorem millisToDateTime?_millis {millis : Int} {t : DateTime} (h : DateTime.ofMillis? millis = some t) :
    (int t.millis).millisToDateTime? = some t := by
  have hsmall := DateTime.natAbs_lt_of_ofMillis? h
  have hshown : millis.natAbs < Numeral.tooLarge :=
    Numeral.lt_tooLarge (k := 16) (Nat.lt_trans hsmall (by decide)) (by decide)
  rw [DateTime.millis_of_ofMillis? h]
  simp only [millisToDateTime?, toDouble?_int hshown, DateTime.ofMillisDouble?,
    Double.truncate?_ofInt hsmall, h]

/-- A time in whole milliseconds is read again from its ISO text. -/
theorem isoToDateTime?_text {t : DateTime} (h : t.WholeMillis) :
    ∃ text, t.isoText? = some text ∧ (str text).isoToDateTime? = some t := by
  obtain ⟨text, htext, hne, hread⟩ := DateTime.ofIso?_isoText? h
  refine ⟨text, htext, ?_⟩
  have htruthy : (str text).isTruthy = true := by simpa [isTruthy] using hne
  rw [isoToDateTime?, if_pos htruthy, looseText, hread]

end Value
end Wireform
