import Wireform.Proofs.Attempt
import Wireform.Proofs.DateTime.Instant
import Wireform.Proofs.Double.Nearest
import Wireform.Schema.Decode

/-!
# Counts of milliseconds

A number of milliseconds loses its fraction toward zero, and what is left is read as a time if the calendar has
that millisecond. The time is in UTC and gives the same count back, before the epoch as well as after it, so
different counts are different times. Neither what is no finite number nor what lies outside the calendar raises
a fault.
-/
namespace Wireform

/-- The numbers of milliseconds that are looked at, with the whole number that is left of each; nothing is left
of what is not finite. -/
inductive Counts : Value → Option Int → Prop
  | double (x : Double) : Counts (.float x) (x.toRat?.map Double.towardZero)
  | integer {n : Int} (h : n.natAbs < 2 ^ 1023) : Counts (.int n) (some n)

/-- The whole number of milliseconds that a value is read as. -/
def Value.wholeMillis? (v : Value) : Option Int :=
  (v.toDouble?.bind Double.toRat?).map Double.towardZero

namespace DateTime

/-- The time of a count of milliseconds: there is one exactly in the years 1 to 9999, in UTC and without a
fraction of a millisecond, and it counts as many. -/
structure TimeOf (whole : Option Int) (time : Option DateTime) : Prop where
  isSome_iff : time.isSome ↔ ∃ n, whole = some n ∧ -62135596800000 ≤ n ∧ n ≤ 253402300799999
  wholeMillis : ∀ t, time = some t → t.WholeMillis
  millis : ∀ t, time = some t → whole = some t.millis

/-- The first and the last millisecond of the calendar. -/
theorem inCalendar_iff (n : Int) :
    InCalendar (epoch + n * 1000) ↔ -62135596800000 ≤ n ∧ n ≤ 253402300799999 := by
  simp only [InCalendar, epoch, microsOfCalendar, Calendar.dayCount, microsPerDay]
  omega

theorem timeOf_ofMillis? (n : Int) : TimeOf (some n) (ofMillis? n) := by
  refine ⟨?_, fun t ht => .of_ofMillis? ht, fun t ht => by rw [millis_of_ofMillis? ht]⟩
  rw [Option.isSome_iff_exists]
  constructor
  · rintro ⟨t, ht⟩
    obtain ⟨hticks, -⟩ := ofTicks?_eq_some ht
    refine ⟨n, rfl, (inCalendar_iff n).mp ?_⟩
    rw [← hticks]
    exact ⟨Int.natCast_nonneg _, by exact_mod_cast t.inCalendar⟩
  · rintro ⟨k, hk, hn⟩
    obtain rfl := Option.some.inj hk
    obtain ⟨t, ht, -⟩ := ofTicks?_of_inCalendar ((inCalendar_iff n).mpr hn) (some .utc)
    exact ⟨t, ht⟩

theorem timeOf_none : TimeOf none none :=
  ⟨by simp, nofun, nofun⟩

theorem timeOf_bind (whole : Option Int) : TimeOf whole (whole.bind ofMillis?) := by
  cases whole with
  | none => exact timeOf_none
  | some n => exact timeOf_ofMillis? n

theorem ofMillisDouble?_eq (x : Double) :
    ofMillisDouble? x = (x.toRat?.map Double.towardZero).bind ofMillis? := by
  rw [ofMillisDouble?, ← Double.truncate?_eq]
  cases x.truncate? <;> rfl

end DateTime

namespace Double

/-- An integer of that size is below the largest double. -/
theorem isFinite_ofInt_of_lt {n : Int} {k : Nat} (h : n.natAbs < 2 ^ k) (hk : k ≤ 1023) :
    (ofInt n).isFinite = true := by
  refine (roundsTo_ofInt n).isFinite_iff.mpr ?_
  calc |(n : ℚ)| = n.natAbs := by rw [← Int.cast_abs, ← Nat.cast_natAbs]
    _ < (2 ^ k : Nat) := Nat.cast_lt.mpr h
    _ = 2 ^ k := by rw [Nat.cast_pow, Nat.cast_ofNat]
    _ ≤ beyond := two_pow_le_beyond hk

end Double

namespace Attempt

open DateTime (ofMillis?)

/-- An integer is tested and compared before it is looked for in the calendar, but only what lies outside the
calendar is refused. -/
theorem ofMillisNumber_int {n : Int} (h : (Double.ofInt n).isFinite = true) :
    ofMillisNumber (.int n) = .ok (ofMillis? n) := by
  simp only [ofMillisNumber, asDouble, h, if_true, raising_some, ok_bind, Bool.not_true, Bool.false_or,
    decide_eq_true_eq]
  split
  · rename_i hfar
    rw [ofMillis?_eq_none hfar.le]
  · cases ofMillis? n <;> rfl

theorem ofMillisNumber_float (x : Double) :
    ofMillisNumber (.float x) = .ok (DateTime.ofMillisDouble? x) :=
  ofMillis_eq (some x)

end Attempt

namespace Value

open DateTime (TimeOf)

theorem timeOf_millisToDateTime? (v : Value) : TimeOf v.wholeMillis? v.millisToDateTime? := by
  have heq : v.millisToDateTime? = v.wholeMillis?.bind DateTime.ofMillis? := by
    rw [millisToDateTime?, wholeMillis?]
    cases v.toDouble? with
    | none => rfl
    | some x => exact DateTime.ofMillisDouble?_eq x
  rw [heq]
  exact DateTime.timeOf_bind _

end Value

namespace Schema

open DateTime (TimeOf)

theorem decode_millis_eq_ok {v t : Value} :
    (Schema.scalar .dateUnixMillis).decode v = .ok t ↔ ∃ u, v.millisToDateTime? = some u ∧ t = .datetime u := by
  simp only [decode, Scalar.read?]
  cases v.millisToDateTime? with
  | none => simp
  | some u => simp [eq_comm]

/-- Numbers of milliseconds are read without a fault: as the time with as many whole milliseconds if the calendar
has it, and as nothing otherwise. So what a value is read as is written as the whole number that the value was
read as, and values with different whole numbers are read as different times. -/
theorem millis_exact :
    (∀ ms whole, Counts ms whole → ∃ time, Attempt.ofMillisNumber ms = .ok time ∧
      DateTime.ofMillisValue? ms = .ok time ∧ TimeOf whole time) ∧
    (∀ v : Value, TimeOf v.wholeMillis? v.millisToDateTime?) ∧
    (∀ v t, (Schema.scalar .dateUnixMillis).decode v = .ok t → ∃ n, v.wholeMillis? = some n ∧
      (Schema.scalar .dateUnixMillis).encode t = .ok (.int n)) ∧
    ∀ v w t u, (Schema.scalar .dateUnixMillis).decode v = .ok t →
      (Schema.scalar .dateUnixMillis).decode w = .ok u → v.wholeMillis? ≠ w.wholeMillis? → t ≠ u := by
  refine ⟨?_, Value.timeOf_millisToDateTime?, ?_, ?_⟩
  · intro ms whole h
    cases h with
    | double x =>
        refine ⟨_, Attempt.ofMillisNumber_float x, rfl, ?_⟩
        rw [DateTime.ofMillisDouble?_eq]
        exact DateTime.timeOf_bind _
    | @integer n h =>
        have hfinite := Double.isFinite_ofInt_of_lt h le_rfl
        exact ⟨_, Attempt.ofMillisNumber_int hfinite, if_pos hfinite, DateTime.timeOf_ofMillis? n⟩
  · intro v t h
    obtain ⟨u, hu, rfl⟩ := decode_millis_eq_ok.mp h
    exact ⟨u.millis, v.timeOf_millisToDateTime?.millis u hu, rfl⟩
  · rintro v w t u hv hw hne rfl
    obtain ⟨a, ha, rfl⟩ := decode_millis_eq_ok.mp hv
    obtain ⟨b, hb, heq⟩ := decode_millis_eq_ok.mp hw
    obtain rfl := Value.datetime.inj heq
    exact hne ((v.timeOf_millisToDateTime?.millis a ha).trans (w.timeOf_millisToDateTime?.millis a hb).symm)

/-- At both ends of the calendar: one millisecond too many, and the first and the last one with a fraction. -/
theorem millis_exact_ends :
    (∃ time, Attempt.ofMillisNumber (.int 253402300800000) = .ok time ∧
      DateTime.ofMillisValue? (.int 253402300800000) = .ok time ∧ TimeOf (some 253402300800000) time) ∧
    (∃ n, (Value.str "-62135596800000.9").wholeMillis? = some n ∧
      (Schema.scalar .dateUnixMillis).encode (.datetime ⟨0, by decide, some .utc⟩) = .ok (.int n)) ∧
    (Value.datetime ⟨0, by decide, some .utc⟩ ≠ .datetime ⟨315537897599999000, by decide, some .utc⟩) := by
  have hfirst : (Value.str "-62135596800000.9").millisToDateTime? = some ⟨0, by decide, some .utc⟩ := by
    decide +kernel
  have hlast : (Value.str "253402300799999.9").millisToDateTime? =
      some ⟨315537897599999000, by decide, some .utc⟩ := by
    decide +kernel
  have hsmall (k : Nat) (hk : 48 ≤ k) : (253402300800000 : Int).natAbs < 2 ^ k :=
    Nat.lt_of_lt_of_le (by decide) (Nat.pow_le_pow_right (by decide) hk)
  have hdecode := decode_millis_eq_ok.mpr ⟨_, hfirst, rfl⟩
  refine ⟨millis_exact.1 _ _ (.integer (hsmall 1023 (by decide))), millis_exact.2.2.1 _ _ hdecode,
    millis_exact.2.2.2 _ _ _ _ hdecode (decode_millis_eq_ok.mpr ⟨_, hlast, rfl⟩) ?_⟩
  rw [(millis_exact.2.1 _).millis _ hfirst, (millis_exact.2.1 _).millis _ hlast]
  decide

end Schema
end Wireform
