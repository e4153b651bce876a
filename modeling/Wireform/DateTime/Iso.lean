import Wireform.DateTime.Basic

/-!
# ISO 8601 texts

Reading of calendar dates, basic dates and week dates, each with an optional time of day and zone. The
length of the date part is found first, from the form of its first characters; any one character may stand
between the date and the time.
-/
namespace Wireform.DateTime

/-- Exactly `n` decimal digits and the text after them. -/
def takeFixed? (n : Nat) (cs : List Char) : Option (Nat × List Char) :=
  let digits := cs.take n
  if digits.length = n ∧ digits.all Char.isDigit then some (Numeral.ofDigits digits, cs.drop n)
  else none

/-- The length of the date at the start of a text of at least seven characters: of `YYYY-MM-DD`,
`YYYYMMDD`, `YYYY-Www`, `YYYY-Www-D`, `YYYYWww` or `YYYYWwwD`. In the week forms the digits after the week
are told from a time by their number. -/
def dateLength? (cs : List Char) : Option Nat :=
  let isDigitAt (i : Nat) : Bool := (cs[i]?).any Char.isDigit
  if cs.length = 7 then some 7
  else if cs[4]? = some '-' then
    if cs[5]? = some 'W' then
      if cs[8]? = some '-' then
        if cs.length = 9 then none
        else if isDigitAt 10 then some 8
        else some 10
      else some 8
    else some 10
  else if cs[4]? = some 'W' then
    let stop := 7 + ((cs.drop 7).takeWhile Char.isDigit).length
    if stop < 9 then some stop
    else if stop % 2 = 0 then some 7
    else some 8
  else some 8

/-- The day of the week after a week number, Monday if there is none. -/
def readWeekday? (dashed : Bool) : List Char → Option Nat
  | [] => some 1
  | c :: cs =>
    let digits := if dashed then (if c = '-' then cs else []) else c :: cs
    (takeFixed? 1 digits).map (·.1)

def readDay? (cs : List Char) : Option Nat :=
  match takeFixed? 4 cs with
  | none => none
  | some (year, rest) =>
    let dashed := rest.head? = some '-'
    let rest := if dashed then rest.drop 1 else rest
    match rest with
    | 'W' :: rest =>
      match takeFixed? 2 rest with
      | none => none
      | some (week, rest) =>
        match readWeekday? dashed rest with
        | none => none
        | some day => Calendar.ofWeekDate? year week day
    | rest =>
      match takeFixed? 2 rest with
      | none => none
      | some (month, rest) =>
        if dashed ∧ rest.head? ≠ some '-' then none
        else
          match takeFixed? 2 (if dashed then rest.drop 1 else rest) with
          | some (day, []) => Calendar.ofCivil? year month day
          | _ => none

/-- A time of day or an offset in its fields, none of them bounded yet. -/
structure Clock where
  hour : Nat
  minute : Nat
  second : Nat
  micro : Nat

def Clock.micros (c : Clock) : Nat :=
  ((c.hour * 60 + c.minute) * 60 + c.second) * 1000000 + c.micro

/-- A fraction of a second as microseconds: after a point or comma at least one digit, of which the first
six count. This is the documented grammar, so a point without digits is refused before a zone as well. -/
def readFraction? : List Char → Option Nat
  | [] => some 0
  | c :: digits =>
    if (c = '.' ∨ c = ',') ∧ digits ≠ [] ∧ digits.all Char.isDigit then
      let kept := digits.take 6
      some (Numeral.ofDigits kept * 10 ^ (6 - kept.length))
    else none

/-- The seconds and their fraction at the end of a time of day. -/
def readSeconds? (hour minute : Nat) (cs : List Char) : Option Clock :=
  match takeFixed? 2 cs with
  | none => none
  | some (second, rest) => (readFraction? rest).map fun micro => ⟨hour, minute, second, micro⟩

/-- `HH`, `HH:MM`, `HH:MM:SS` with an optional fraction, or the same without colons. -/
def readClock? (cs : List Char) : Option Clock :=
  match takeFixed? 2 cs with
  | none => none
  | some (hour, []) => some ⟨hour, 0, 0, 0⟩
  | some (hour, ':' :: rest) =>
    match takeFixed? 2 rest with
    | some (minute, []) => some ⟨hour, minute, 0, 0⟩
    | some (minute, ':' :: rest) => readSeconds? hour minute rest
    | _ => none
  | some (hour, rest) =>
    match takeFixed? 2 rest with
    | none => none
    | some (minute, []) => some ⟨hour, minute, 0, 0⟩
    | some (minute, rest) => readSeconds? hour minute rest

/-- The zone at the end of a time: nothing, `Z`, or a signed offset. The outer `none` is a fault. -/
def readZone? : List Char → Option (Option Offset)
  | [] => some none
  | ['Z'] => some (some .utc)
  | '+' :: cs => (readClock? cs).bind fun c => (Offset.ofMicros? c.micros).map some
  | '-' :: cs => (readClock? cs).bind fun c => (Offset.ofMicros? (-(c.micros : Int))).map some
  | _ => none

def startsZone (c : Char) : Bool :=
  c == '+' || c == '-' || c == 'Z'

def readTime? (cs : List Char) : Option (Nat × Option Offset) :=
  match readClock? (cs.takeWhile (!startsZone ·)) with
  | none => none
  | some c =>
    if c.hour < 24 ∧ c.minute < 60 ∧ c.second < 60 then
      (readZone? (cs.dropWhile (!startsZone ·))).map (c.micros, ·)
    else none

/-- A date, alone or with any one character and a time after it. -/
def readIso? (cs : List Char) : Option DateTime :=
  if cs.length < 7 then none
  else
    match dateLength? cs with
    | none => none
    | some length =>
      match readDay? (cs.take length) with
      | none => none
      | some day =>
        match cs.drop length with
        | [] => ofDay? day 0 none
        | _ :: rest =>
          match readTime? rest with
          | none => none
          | some (micros, offset) => ofDay? day micros offset

/-- The UTC time of an ISO text, in whole milliseconds. -/
def ofIso? (cs : List Char) : Option DateTime :=
  match readIso? cs with
  | none => none
  | some t => t.toUtc?.map floorMillis

end Wireform.DateTime
