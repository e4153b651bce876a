import Wireform.DateTime.Basic
import Wireform.Double.Decimal
import Wireform.Text.Character
import Wireform.Value.Basic
import Wireform.Yaml.Cursor
import Wireform.Yaml.Tag

/-!
# Values of scalars

The value that the text of a scalar has under each tag. A text that was given a tag which it does not fit
is a fault.
-/
namespace Wireform.Yaml

/-- The letter that stands for a base after a zero. -/
def baseLetter? : Nat → Option Char
  | 2 => some 'b'
  | 8 => some 'o'
  | 16 => some 'x'
  | _ => none

/-- An integer in a base: white space around it, a sign, and the mark of the base are passed over. In base
ten the digits must not be too many. -/
def readInteger (base : Nat) (cs : List Char) : Except Fault Int :=
  let (negative, rest) := Numeral.takeSign (Text.numberText cs)
  let digits :=
    match rest with
    | '0' :: c :: digits => if baseLetter? base = some c.toLower then digits else rest
    | rest => rest
  if digits.isEmpty || !digits.all (Numeral.isDigitIn base) then .error .badNumber
  else if base = 10 ∧ Numeral.maxDigits < digits.length then .error .badNumber
  else .ok (Numeral.signed negative (Numeral.ofDigitsIn base digits))

def splitColons (cs : List Char) : List (List Char) :=
  (String.ofList cs).splitOn ":" |>.map String.toList

/-- The integers among colons, as digits of base sixty. -/
def readSixties (cs : List Char) : Except Fault Int :=
  (splitColons cs).foldl
    (fun sum part => do
      let n ← sum
      return n * 60 + (← readInteger 10 part))
    (.ok 0)

def dropSpacing (cs : List Char) : List Char :=
  cs.filter (· != '_')

/-- An integer: octal after a zero, and base sixty where there are colons. -/
def intOf (cs : List Char) : Except Fault Int :=
  match dropSpacing cs with
  | [] => .error .emptyNumber
  | spaced =>
    let (negative, rest) := Numeral.takeSign spaced
    let size : Except Fault Int :=
      match rest with
      | [] => .error .emptyNumber
      | ['0'] => .ok 0
      | '0' :: 'b' :: digits => readInteger 2 digits
      | '0' :: 'x' :: digits => readInteger 16 digits
      | '0' :: _ => readInteger 8 rest
      | _ => if rest.contains ':' then readSixties rest else readInteger 10 rest
    size.map fun n => if negative then -n else n

/-- A float by itself: a decimal literal or a word in small letters, with white space around it. -/
def readFloat (cs : List Char) : Except Fault Double :=
  let (negative, rest) := Numeral.takeSign (Text.numberText cs)
  let word := String.ofList rest
  if word == "inf" || word == "infinity" then .ok (.infinite negative)
  else if word == "nan" then .ok .nan
  else
    match Double.takeUnsigned? negative rest with
    | some (x, []) => .ok x
    | _ => .error .badNumber

/-- The sum of floats in places of base sixty, the last place first, added to what was summed before. Every
step is rounded: the worth of the place, the product, and the sum. -/
def addSixties (unit : Nat) (sum : Double) : List Double → Except Fault Double
  | [] => .ok sum
  | x :: xs =>
    let worth := Double.ofInt unit
    if worth.isFinite then addSixties (unit * 60) (sum.add (x.mul worth)) xs
    else .error .oversizedPlace

def negate : Double → Double
  | .nan => .nan
  | .infinite negative => .infinite !negative
  | .finite negative m e h => .finite (!negative) m e h

def nanMark : List Char := ".nan".toList

/-- A float text without underscores, in small letters. -/
def plainFloat (cs : List Char) : List Char :=
  (dropSpacing cs).map Char.toLower

def isNanMark (cs : List Char) : Bool :=
  (Numeral.takeSign (plainFloat cs)).2 == nanMark

/-- A float: an infinity, what is no number, places of base sixty where there are colons, or a decimal
literal. -/
def floatOf (cs : List Char) : Except Fault Double :=
  match plainFloat cs with
  | [] => .error .emptyNumber
  | plain =>
    let (negative, rest) := Numeral.takeSign plain
    let size : Except Fault Double :=
      if rest == ".inf".toList then .ok (.infinite false)
      else if rest == nanMark then .ok .nan
      else if rest.contains ':' then do
        addSixties 1 (.zero false) (← (splitColons rest).mapM readFloat).reverse
      else readFloat rest
    size.map fun x => if negative then negate x else x

def boolOf (cs : List Char) : Except Fault Bool :=
  match Tag.truthWords.lookup (String.ofList cs).toLower with
  | some b => .ok b
  | none => .error .badTruth

/-- The first six digits of a fraction as microseconds. -/
def microsOf (digits : List Char) : Nat :=
  let kept := digits.take 6
  Numeral.ofDigits kept * 10 ^ (6 - kept.length)

/-- A day, or a time with or without a zone; a line feed at the end does not count. -/
def timeOf (cs : List Char) : Except Fault Value :=
  match TimeFields.read? (dropFinalBreak cs) with
  | none => .error .badTime
  | some t =>
    match Calendar.ofCivil? t.year t.month t.day with
    | none => .error .impossibleTime
    | some ordinal =>
      match t.clock with
      | none => .ok (.day ordinal)
      | some (hour, minute, second, fraction) =>
        let micros := ((hour * 60 + minute) * 60 + second) * 1000000 + microsOf fraction
        let offset := t.zone.map fun minutes => Offset.ofMicros? (minutes * 60000000)
        if hour < 24 ∧ minute < 60 ∧ second < 60 ∧ offset ≠ some none then
          match DateTime.ofDay? ordinal micros offset.join with
          | some time => .ok (.datetime time)
          | none => .error .impossibleTime
        else .error .impossibleTime

def sextet? (c : Char) : Option Nat :=
  if 'A' ≤ c ∧ c ≤ 'Z' then some (c.toNat - 65)
  else if 'a' ≤ c ∧ c ≤ 'z' then some (c.toNat - 71)
  else if '0' ≤ c ∧ c ≤ '9' then some (c.toNat + 4)
  else if c = '+' then some 62
  else if c = '/' then some 63
  else none

/-- Bytes in base 64: `held` is the number of sextets in `bits` that wait for others, and `pads` that of
equality signs since. Other characters are passed over. -/
def readBase64 : List Char → Nat → Nat → Nat → List UInt8 → Except Fault (List UInt8)
  | [], held, _, _, bytes => if held = 0 then .ok bytes.reverse else .error .malformed
  | c :: cs, held, pads, bits, bytes =>
    if c = '=' then
      if 2 ≤ held ∧ 4 ≤ held + pads + 1 then .ok bytes.reverse
      else readBase64 cs held (if 2 ≤ held then pads + 1 else pads) bits bytes
    else
      match sextet? c with
      | none => readBase64 cs held pads bits bytes
      | some n =>
        let bits := bits * 64 + n
        match held with
        | 0 => readBase64 cs 1 0 n bytes
        | 1 => readBase64 cs 2 0 (bits % 16) ((bits / 16).toUInt8 :: bytes)
        | 2 => readBase64 cs 3 0 (bits % 4) ((bits / 4).toUInt8 :: bytes)
        | _ => readBase64 cs 0 0 0 (bits.toUInt8 :: bytes)

def bytesOf (cs : List Char) : Except Fault (List UInt8) :=
  if cs.all (·.toNat < 0x80) then readBase64 cs 0 0 0 [] else .error .malformed

end Wireform.Yaml
