import Wireform.Schema.Encode
import Wireform.Proofs.Calendar.Counted
import Wireform.Proofs.Coercion
import Wireform.Proofs.DateTime.IsoText

/-!
# Instants

Whatever way a time is written, what is read back is its instant in UTC, cut down to whole milliseconds, and
nothing if the instant lies outside the calendar. This holds of the ISO text and of the count of milliseconds
that a time is written as, and of any full ISO text: the date counts by the calendar, and the offset is taken
off across days, months and years.
-/
namespace Wireform

open Numeral (padded)

namespace DateTime

/-- Whether an instant lies in the years 1 to 9999. -/
abbrev InCalendar (instant : Int) : Prop :=
  0 ≤ instant ∧ instant < microsOfCalendar

/-- The time in UTC that a reader gives for an instant. -/
structure ReadAs (instant : Int) (t : DateTime) : Prop where
  utc : t.offset = some .utc
  ticks : (t.ticks : Int) = instant / 1000 * 1000

section

variable {ticks instant : Int}

theorem ofTicks?_of_inCalendar (h : InCalendar ticks) (offset : Option Offset) :
    ∃ t, ofTicks? ticks offset = some t ∧ (t.ticks : Int) = ticks ∧ t.offset = offset := by
  have hbound : 0 ≤ ticks ∧ ticks.toNat < microsOfCalendar := ⟨h.1, by omega⟩
  exact ⟨_, dif_pos hbound, Int.toNat_of_nonneg h.1, rfl⟩

theorem ofTicks?_of_not_inCalendar (h : ¬ InCalendar ticks) (offset : Option Offset) :
    ofTicks? ticks offset = none := by
  refine dif_neg fun hbound => h ⟨hbound.1, ?_⟩
  omega

/-- The calendar begins and ends with a whole millisecond. -/
theorem inCalendar_floor : InCalendar (instant / 1000 * 1000) ↔ InCalendar instant := by
  simp only [InCalendar, microsOfCalendar, Calendar.dayCount, microsPerDay]
  omega

end

variable {t : DateTime}

theorem toUtc?_of_inCalendar (h : InCalendar t.instant) :
    ∃ u, t.toUtc? = some u ∧ u.offset = some .utc ∧ (u.ticks : Int) = t.instant := by
  obtain ⟨u, hu, hticks, hoffset⟩ := ofTicks?_of_inCalendar h (some .utc)
  exact ⟨u, hu, hoffset, hticks⟩

theorem toUtc?_of_not_inCalendar (h : ¬ InCalendar t.instant) : t.toUtc? = none :=
  ofTicks?_of_not_inCalendar h _

/-- The counts of milliseconds of all times, in the calendar or not, are told apart by a double. -/
theorem natAbs_millis_lt (t : DateTime) : t.millis.natAbs < 2 ^ 53 := by
  have hticks := t.inCalendar
  simp only [microsOfCalendar, Calendar.dayCount, microsPerDay] at hticks
  rw [millis, Int.fdiv_eq_ediv_of_nonneg _ (by decide)]
  unfold instant
  split
  · simp only [epoch, microsPerDay]
    omega
  · rename_i o _
    have hoffset := o.bounded
    simp only [microsPerDay] at hoffset
    simp only [epoch, microsPerDay]
    omega

/-- Counting milliseconds from the epoch or from the start of the calendar cuts off the same. -/
theorem epoch_add_millis (t : DateTime) : (epoch : Int) + t.millis * 1000 = t.instant / 1000 * 1000 := by
  rw [millis, Int.fdiv_eq_ediv_of_nonneg _ (by decide)]
  simp only [epoch, microsPerDay]
  omega

theorem ofMillis?_millis (h : InCalendar t.instant) :
    ∃ u, ofMillis? t.millis = some u ∧ ReadAs t.instant u := by
  obtain ⟨u, hu, hticks, hoffset⟩ := ofTicks?_of_inCalendar (inCalendar_floor.mpr h) (some .utc)
  exact ⟨u, by rw [ofMillis?, epoch_add_millis, hu], hoffset, hticks⟩

theorem ofMillis?_millis_eq_none (h : ¬ InCalendar t.instant) : ofMillis? t.millis = none := by
  rw [ofMillis?, epoch_add_millis]
  exact ofTicks?_of_not_inCalendar (fun hfloor => h (inCalendar_floor.mp hfloor)) _

/-- What an instant is read as is given by it. -/
theorem ReadAs.unique {instant : Int} {u v : DateTime} (hu : ReadAs instant u) (hv : ReadAs instant v) :
    u = v :=
  eq_of_ticks (Int.ofNat_inj.mp (hu.ticks.trans hv.ticks.symm)) (hu.utc.trans hv.utc.symm)

theorem isoText?_eq_none (h : ¬ InCalendar t.instant) : t.isoText? = none := by
  rw [isoText?, toUtc?_of_not_inCalendar h, Option.map_none]

/-- The text does not show what is left over of a millisecond. -/
theorem isoText?_floorMillis {u : DateTime} (hu : u.offset = some .utc) : u.floorMillis.isoText? = u.isoText? := by
  have hfloor : u.floorMillis.offset = some .utc := hu
  rw [isoText?, isoText?, toUtc?_of_utc hu, toUtc?_of_utc hfloor]
  have hday : u.ticks / 1000 * 1000 / microsPerDay = u.ticks / microsPerDay := by
    simp only [microsPerDay]
    omega
  have hhour : u.floorMillis.hour = u.hour := by
    simp only [hour, floorMillis]
    omega
  have hminute : u.floorMillis.minute = u.minute := by
    simp only [minute, floorMillis]
    omega
  have hsecond : u.floorMillis.second = u.second := by
    simp only [second, floorMillis]
    omega
  have hmillis : u.floorMillis.micro / 1000 = u.micro / 1000 := by
    simp only [micro, floorMillis]
    omega
  simp only [Option.map_some, civil, clockText, hhour, hminute, hsecond, hmillis]
  simp only [floorMillis, hday]

/-- The text of a time in the calendar is read as its instant. -/
theorem isoToDateTime?_isoText? (h : InCalendar t.instant) :
    ∃ text u, t.isoText? = some text ∧ (Value.str text).isoToDateTime? = some u ∧ ReadAs t.instant u := by
  obtain ⟨u, hu, hoffset, hticks⟩ := toUtc?_of_inCalendar h
  have hwhole : u.floorMillis.WholeMillis := by
    refine ⟨hoffset, ?_⟩
    simp only [floorMillis, micro]
    omega
  obtain ⟨text, htext, hread⟩ := Value.isoToDateTime?_text hwhole
  refine ⟨text, u.floorMillis, ?_, hread, hoffset, ?_⟩
  · rw [← htext, isoText?_floorMillis hoffset, isoText?, isoText?, hu, toUtc?_of_utc hoffset]
  · rw [← hticks]
    exact Int.natCast_mul ..

/-- A count of milliseconds is small enough to be looked at. -/
theorem ofMillisValue?_millis (t : DateTime) : ofMillisValue? (.int t.millis) = .ok (ofMillis? t.millis) :=
  if_pos (Double.isFinite_ofInt t.natAbs_millis_lt)

/-- The text of a time and its count of milliseconds are read as the same time, the instant in UTC in whole
milliseconds. If the instant lies outside the calendar, there is no text, and the count is not read. -/
theorem iso_agrees_with_millis (t : DateTime) :
    if InCalendar t.instant then
      ∃ text u, t.isoText? = some text ∧ (Value.str text).isoToDateTime? = some u ∧
        ofMillisValue? (.int t.millis) = .ok (some u) ∧ ReadAs t.instant u
    else
      t.isoText? = none ∧ Scalar.dateIso.write (.datetime t) = .error .outsideCalendar ∧
        ofMillisValue? (.int t.millis) = .ok none := by
  rw [ofMillisValue?_millis]
  split
  · rename_i h
    obtain ⟨text, u, htext, hread, hu⟩ := isoToDateTime?_isoText? h
    obtain ⟨v, hmillis, hv⟩ := ofMillis?_millis h
    exact ⟨text, u, htext, hread, by rw [hmillis, hu.unique hv], hu⟩
  · rename_i h
    have hnone := isoText?_eq_none h
    exact ⟨hnone, by simp only [Scalar.write, hnone], by rw [ofMillis?_millis_eq_none h]⟩

/-! ### Full ISO texts -/

/-- The zone at the end of a text: nothing, which is read as UTC, `Z`, or an offset in hours and minutes. -/
inductive Zone
  | absent
  | utc
  | offset (negative : Bool) (hour minute : Nat) (hour_lt : hour < 24) (minute_lt : minute < 60)

namespace Zone

def text : Zone → List Char
  | absent => []
  | utc => ['Z']
  | offset negative hour minute _ _ =>
    (if negative then '-' else '+') :: (padded 2 hour ++ ':' :: padded 2 minute)

def micros : Zone → Int
  | absent => 0
  | utc => 0
  | offset negative hour minute _ _ => Numeral.signed negative ((hour * 60 + minute) * 60000000)

theorem ofMicros?_eq_some {micros : Int} (h : micros.natAbs < microsPerDay) :
    Offset.ofMicros? micros = some ⟨micros, h⟩ :=
  dif_pos h

/-- A sign and a clock of less than a day are read as an offset. -/
theorem readZone?_clock (negative : Bool) {cs : List Char} {c : Clock} (h : readClock? cs = some c)
    (hday : c.micros < microsPerDay) :
    ∃ o, readZone? ((if negative then '-' else '+') :: cs) = some (some o) ∧
      o.micros = Numeral.signed negative c.micros := by
  have hsize : (Numeral.signed negative c.micros).natAbs < microsPerDay := by
    cases negative with
    | false => exact hday
    | true =>
        rw [Numeral.signed, if_pos rfl, Int.natAbs_neg, Int.natAbs_natCast]
        exact hday
  refine ⟨⟨_, hsize⟩, ?_, rfl⟩
  have hoffset := ofMicros?_eq_some hsize
  cases negative with
  | false =>
      simp only [Numeral.signed, Bool.false_eq_true, if_false] at hoffset ⊢
      rw [readZone?, h, Option.bind_some, hoffset, Option.map_some]
  | true =>
      simp only [Numeral.signed, if_true] at hoffset ⊢
      rw [readZone?, h, Option.bind_some, hoffset, Option.map_some]

/-- What the zone of a text is read as. -/
theorem readZone?_text (z : Zone) :
    ∃ o : Option Offset, readZone? z.text = some o ∧ (o.map Offset.micros).getD 0 = z.micros := by
  cases z with
  | absent => exact ⟨none, rfl, rfl⟩
  | utc => exact ⟨some .utc, rfl, rfl⟩
  | offset negative hour minute hh hm =>
      have hhour := takeFixed?_padded (by decide) (show hour < 10 ^ 2 by omega) (':' :: padded 2 minute)
      have hminute := takeFixed?_padded_nil (by decide) (show minute < 10 ^ 2 by omega)
      have hclock : readClock? (padded 2 hour ++ ':' :: padded 2 minute) = some ⟨hour, minute, 0, 0⟩ := by
        simp [readClock?, hhour, hminute]
      have hsize : Clock.micros ⟨hour, minute, 0, 0⟩ = (hour * 60 + minute) * 60000000 := by
        simp only [Clock.micros]
        omega
      obtain ⟨o, ho, hmicros⟩ := readZone?_clock negative hclock (by
        simp only [hsize, microsPerDay]
        omega)
      refine ⟨some o, ho, ?_⟩
      rw [Option.map_some, Option.getD_some, hmicros, hsize, micros]

theorem startsZone_head (z : Zone) : ∀ c ∈ z.text.head?, startsZone c = true := by
  cases z with
  | absent => simp [text]
  | utc => simp [text, startsZone]
  | offset negative => cases negative <;> simp [text, startsZone]

end Zone

/-- A full ISO text by its parts: a date that exists, a time of day, a fraction of at most six digits, and a
zone. -/
structure IsoParts where
  date : Calendar.Civil
  hour : Nat
  minute : Nat
  second : Nat
  /-- The digits of the fraction, none if there is no fraction. -/
  fraction : List Char
  zone : Zone
  date_valid : date.valid = true
  hour_lt : hour < 24
  minute_lt : minute < 60
  second_lt : second < 60
  fraction_isDigit : ∀ c ∈ fraction, c.isDigit = true
  fraction_length : fraction.length ≤ 6

namespace IsoParts

def fractionText (p : IsoParts) : List Char :=
  if p.fraction = [] then [] else '.' :: p.fraction

/-- `YYYY-MM-DDTHH:MM:SS`, the fraction and the zone. -/
def text (p : IsoParts) : String :=
  String.ofList <|
    p.date.text ++ 'T' ::
      (padded 2 p.hour ++ ':' :: (padded 2 p.minute ++ ':' :: (padded 2 p.second ++ p.fractionText)) ++
        p.zone.text)

/-- The time of day in microseconds. -/
def clock (p : IsoParts) : Nat :=
  ((p.hour * 60 + p.minute) * 60 + p.second) * 1000000 +
    Numeral.ofDigits p.fraction * 10 ^ (6 - p.fraction.length)

theorem readFraction?_text (p : IsoParts) :
    readFraction? p.fractionText = some (Numeral.ofDigits p.fraction * 10 ^ (6 - p.fraction.length)) := by
  unfold fractionText
  split
  · rename_i hnil
    rw [hnil]
    rfl
  · rename_i hne
    exact readFraction?_digits hne p.fraction_isDigit p.fraction_length

theorem startsZone_fraction (p : IsoParts) : ∀ c ∈ p.fractionText, startsZone c = false := by
  unfold fractionText
  split
  · simp
  · exact List.forall_mem_cons.mpr
      ⟨by decide, fun c hc => startsZone_of_isDigit (p.fraction_isDigit c hc)⟩

/-- A time of day is less than a day. -/
theorem clock_lt (p : IsoParts) : p.clock < microsPerDay := by
  have hfraction : Numeral.ofDigits p.fraction * 10 ^ (6 - p.fraction.length) < 1000000 :=
    calc Numeral.ofDigits p.fraction * 10 ^ (6 - p.fraction.length)
        < 10 ^ p.fraction.length * 10 ^ (6 - p.fraction.length) :=
          Nat.mul_lt_mul_of_pos_right (Numeral.ofDigits_lt p.fraction_isDigit) (Nat.pow_pos (by decide))
      _ = 10 ^ 6 := by rw [← Nat.pow_add, Nat.add_sub_cancel' p.fraction_length]
  have hh := p.hour_lt
  have hm := p.minute_lt
  have hs := p.second_lt
  simp only [clock, microsPerDay]
  omega

/-- The local time of a text lies in the calendar, whatever its zone. -/
theorem readIso?_text (p : IsoParts) :
    ∃ t, readIso? p.text.toList = some t ∧
      t.instant = ((p.date.ordinal * microsPerDay + p.clock : Nat) : Int) - p.zone.micros := by
  obtain ⟨o, hzone, hoffset⟩ := p.zone.readZone?_text
  have htime := readTime?_fields p.hour_lt p.minute_lt p.second_lt p.readFraction?_text
    p.startsZone_fraction hzone p.zone.startsZone_head
  have hlocal : InCalendar ((p.date.ordinal * microsPerDay + p.clock : Nat) : Int) := by
    have hday := Calendar.Civil.valid.ordinal_lt p.date_valid
    have hclock := p.clock_lt
    simp only [Calendar.dayCount] at hday
    simp only [microsPerDay] at hclock
    simp only [InCalendar, microsOfCalendar, Calendar.dayCount, microsPerDay]
    omega
  obtain ⟨t, ht, hticks, ho⟩ := ofTicks?_of_inCalendar hlocal o
  refine ⟨t, ?_, ?_⟩
  · rw [text, String.toList_ofList, readIso?_civil_text p.date_valid htime, ofDay?, ← clock, ht]
  · rw [← hticks, ← hoffset, instant, ho]
    cases o with
    | none => simp
    | some o => simp

/-- Every full ISO text is read as its instant: the days from the first of January of the year 1 to the date,
and the time of day, less the offset. The date of the result is found by counting days as well. A text whose
instant lies outside the calendar is not read. -/
theorem isoToDateTime?_parts (p : IsoParts) :
    ∃ day < Calendar.dayCount, Calendar.Civil.after day = p.date ∧
      let instant : Int := ((day * microsPerDay + p.clock : Nat) : Int) - p.zone.micros
      if InCalendar instant then
        ∃ u, (Value.str p.text).isoToDateTime? = some u ∧ ReadAs instant u ∧
          u.civil = Calendar.Civil.after (u.ticks / microsPerDay)
      else (Value.str p.text).isoToDateTime? = none := by
  have hday := Calendar.Civil.valid.ordinal_lt p.date_valid
  refine ⟨p.date.ordinal, hday, ?_, ?_⟩
  · rw [Calendar.Civil.after_eq_civil hday, Calendar.civil_ordinal p.date_valid]
  obtain ⟨t, ht, hinstant⟩ := p.readIso?_text
  have htruthy : (Value.str p.text).isTruthy = true := by
    have hne : p.text ≠ "" := by
      intro hempty
      have := congrArg String.toList hempty
      simp [text] at this
    simpa [Value.isTruthy] using hne
  have hread : (Value.str p.text).isoToDateTime? = t.toUtc?.map floorMillis := by
    rw [Value.isoToDateTime?, if_pos htruthy, Value.looseText, ofIso?, ht]
  simp only [← hinstant, hread]
  split
  · rename_i h
    obtain ⟨u, hu, hoffset, hticks⟩ := toUtc?_of_inCalendar h
    refine ⟨u.floorMillis, by rw [hu, Option.map_some], ⟨hoffset, ?_⟩, ?_⟩
    · rw [← hticks]
      exact Int.natCast_mul ..
    · exact (Calendar.Civil.after_eq_civil u.floorMillis.day_lt).symm
  · rename_i h
    rw [toUtc?_of_not_inCalendar h, Option.map_none]

/-- Half an hour before a new year, in a zone an hour west of UTC. -/
def newYearsEve : IsoParts where
  date := ⟨2023, 12, 31⟩
  hour := 23
  minute := 30
  second := 0
  fraction := ['1', '2', '3', '9']
  zone := .offset true 1 0 (by decide) (by decide)
  date_valid := by decide
  hour_lt := by decide
  minute_lt := by decide
  second_lt := by decide
  fraction_isDigit := List.all_eq_true.mp rfl
  fraction_length := by decide

/-- In UTC the new year has begun, and the fourth digit of the fraction is dropped. -/
theorem isoToDateTime?_parts_newYearsEve :
    ∃ u, (Value.str "2023-12-31T23:30:00.1239-01:00").isoToDateTime? = some u ∧ u.offset = some .utc ∧
      u.civil = ⟨2024, 1, 1⟩ ∧ u.ticks % microsPerDay = (30 * 60 * 1000 + 123) * 1000 := by
  have htext : newYearsEve.text = "2023-12-31T23:30:00.1239-01:00" := by decide +kernel
  have hordinal : newYearsEve.date.ordinal = 738884 := by decide +kernel
  have hinside : InCalendar (((738884 * microsPerDay + newYearsEve.clock : Nat) : Int) -
      newYearsEve.zone.micros) := by decide +kernel
  have hwhole : (((738884 * microsPerDay + newYearsEve.clock : Nat) : Int) - newYearsEve.zone.micros) / 1000 *
      1000 = (63839665800123000 : Nat) := by decide +kernel
  generalize newYearsEve = p at *
  obtain ⟨day, hday, hdate, hread⟩ := isoToDateTime?_parts p
  obtain rfl : day = 738884 := by
    rw [← hordinal, ← hdate, Calendar.Civil.after_eq_civil hday, Calendar.ordinal_civil hday]
  rw [htext, if_pos hinside] at hread
  obtain ⟨u, hu, hinstant, hcivil⟩ := hread
  have hticks : u.ticks = 63839665800123000 := Int.ofNat_inj.mp (hinstant.ticks.trans hwhole)
  refine ⟨u, hu, hinstant.utc, ?_, by rw [hticks]; decide +kernel⟩
  rw [hcivil, hticks, Calendar.Civil.after_eq_civil (by decide +kernel)]
  decide +kernel

end IsoParts

end DateTime
end Wireform
