import Wireform.Calendar
import Wireform.Double.Basic
import Wireform.Numeral

/-!
# Points in time

A date and time of day with microseconds in the years 1 to 9999, with or without an offset from UTC. One
without an offset is read as UTC wherever an instant is needed. Instants are counted in microseconds or
milliseconds; the epoch is the start of 1970.
-/
namespace Wireform

def microsPerDay : Nat := 86400000000

def microsOfCalendar : Nat := Calendar.dayCount * microsPerDay

/-- An offset from UTC of less than a day, in microseconds. -/
structure Offset where
  micros : Int
  bounded : micros.natAbs < microsPerDay
deriving DecidableEq

def Offset.utc : Offset := ⟨0, by decide⟩

def Offset.ofMicros? (micros : Int) : Option Offset :=
  if h : micros.natAbs < microsPerDay then some ⟨micros, h⟩ else none

/-- A local time, in microseconds since the start of the year 1, and its offset if it has one. -/
structure DateTime where
  ticks : Nat
  inCalendar : ticks < microsOfCalendar
  offset : Option Offset
deriving DecidableEq

namespace DateTime

/-- The microseconds from the start of the year 1 to the epoch. -/
def epoch : Nat := 719162 * microsPerDay

/-- The local time of the given microsecond, if it lies in the calendar. -/
def ofTicks? (ticks : Int) (offset : Option Offset) : Option DateTime :=
  if h : 0 ≤ ticks ∧ ticks.toNat < microsOfCalendar then some ⟨ticks.toNat, h.2, offset⟩ else none

/-- The start of a day and a number of microseconds after it. -/
def ofDay? (ordinal micros : Nat) (offset : Option Offset) : Option DateTime :=
  ofTicks? (ordinal * microsPerDay + micros : Nat) offset

/-- Microseconds in UTC since the start of the year 1; before it where the offset reaches back. -/
def instant (t : DateTime) : Int :=
  match t.offset with
  | none => t.ticks
  | some o => t.ticks - o.micros

/-- The same instant in UTC, if it lies in the calendar. -/
def toUtc? (t : DateTime) : Option DateTime :=
  ofTicks? t.instant (some .utc)

/-- Whole milliseconds from the epoch to the instant, rounded down. -/
def millis (t : DateTime) : Int :=
  (t.instant - epoch).fdiv 1000

/-- The UTC time a number of milliseconds after the epoch, if it lies in the calendar. -/
def ofMillis? (millis : Int) : Option DateTime :=
  ofTicks? (epoch + millis * 1000) (some .utc)

/-- The same for a double, without its fraction. -/
def ofMillisDouble? (x : Double) : Option DateTime :=
  match x.truncate? with
  | none => none
  | some millis => ofMillis? millis

/-- The same time without the microseconds past the last whole millisecond. -/
def floorMillis (t : DateTime) : DateTime :=
  ⟨t.ticks / 1000 * 1000, Nat.lt_of_le_of_lt (Nat.div_mul_le_self ..) t.inCalendar, t.offset⟩

/-- Two times with offsets are equal as instants, two without as local times. -/
def equal (a b : DateTime) : Bool :=
  match a.offset, b.offset with
  | none, none => a.ticks == b.ticks
  | some _, some _ => a.instant == b.instant
  | _, _ => false

def civil (t : DateTime) : Calendar.Civil :=
  Calendar.civil (t.ticks / microsPerDay)

def hour (t : DateTime) : Nat := t.ticks / 3600000000 % 24

def minute (t : DateTime) : Nat := t.ticks / 60000000 % 60

def second (t : DateTime) : Nat := t.ticks / 1000000 % 60

def micro (t : DateTime) : Nat := t.ticks % 1000000

end DateTime
end Wireform
