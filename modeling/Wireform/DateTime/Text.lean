import Wireform.DateTime.Basic

/-!
# Texts of dates and times

Civil dates and times of day in fixed-width fields, offsets, and the full constructor form that shows a
value with all its parts.
-/
namespace Wireform

open Numeral (padded)

/-- `YYYY-MM-DD`. -/
def Calendar.Civil.text (c : Civil) : List Char :=
  padded 4 c.year ++ '-' :: padded 2 c.month ++ '-' :: padded 2 c.day

/-- `+HH:MM`, then `:SS` and `.ffffff` as far as they are not zero. -/
def Offset.text (o : Offset) : List Char :=
  let size := o.micros.natAbs
  let seconds := size / 1000000
  let micros := size % 1000000
  (if o.micros < 0 then '-' else '+') :: padded 2 (seconds / 3600) ++
    ':' :: padded 2 (seconds / 60 % 60) ++
    (if seconds % 60 = 0 ∧ micros = 0 then [] else ':' :: padded 2 (seconds % 60)) ++
    (if micros = 0 then [] else '.' :: padded 6 micros)

namespace DateTime

/-- `HH:MM:SS`. -/
def clockText (t : DateTime) : List Char :=
  padded 2 t.hour ++ ':' :: padded 2 t.minute ++ ':' :: padded 2 t.second

/-- The date, a separator, the time of day with a fraction if asked for, and the offset. -/
def fieldText (separator : Char) (fraction : Bool) (t : DateTime) : String :=
  String.ofList <|
    t.civil.text ++ separator :: t.clockText ++
      (if fraction then '.' :: padded 6 t.micro else []) ++
      ((t.offset.map Offset.text).getD [])

/-- The plain text of a time: `YYYY-MM-DD HH:MM:SS`, a fraction unless it is zero, and the offset. -/
def text (t : DateTime) : String :=
  t.fieldText ' ' (t.micro != 0)

/-- `YYYY-MM-DDTHH:MM:SS.sssZ` in UTC, if the instant lies in the calendar. -/
def isoText? (t : DateTime) : Option String :=
  t.toUtc?.map fun u =>
    String.ofList (u.civil.text ++ 'T' :: u.clockText ++ '.' :: padded 3 (u.micro / 1000) ++ ['Z'])

end DateTime

/-- An offset in constructor form: days, seconds and microseconds, those that are zero left out. Only the
days may be negative. -/
def Offset.written (o : Offset) : String :=
  let days := o.micros.fdiv microsPerDay
  let rest := (o.micros.fmod microsPerDay).toNat
  let part (label : String) (n : Int) : List String := if n = 0 then [] else [label ++ "=" ++ toString n]
  if o.micros = 0 then "datetime.timezone.utc"
  else
    "datetime.timezone(datetime.timedelta(" ++
      ", ".intercalate (part "days" days ++ part "seconds" (rest / 1000000 : Nat) ++
        part "microseconds" (rest % 1000000 : Nat)) ++ "))"

def Calendar.Civil.written (c : Civil) : String :=
  "datetime.date(" ++ ", ".intercalate ([c.year, c.month, c.day].map toString) ++ ")"

/-- A time in constructor form: seconds and microseconds are left out from the end while they are zero. -/
def DateTime.written (t : DateTime) : String :=
  let date := t.civil
  let seconds := if t.second = 0 ∧ t.micro = 0 then [] else [t.second]
  let micros := if t.micro = 0 then [] else [t.micro]
  let fields := ([date.year, date.month, date.day, t.hour, t.minute] ++ seconds ++ micros).map toString
  let zone := (t.offset.map fun o => ["tzinfo=" ++ o.written]).getD []
  "datetime.datetime(" ++ ", ".intercalate (fields ++ zone) ++ ")"

end Wireform
