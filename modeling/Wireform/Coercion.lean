import Wireform.DateTime.Iso
import Wireform.Text.Character
import Wireform.Value.Text

/-!
# Lenient reading of scalars

Numbers and dates are read from the loose text of a value: the text that a scripting language would show.
Integers and floats take the longest number at its start and ignore the rest.
-/
namespace Wireform.Value

/-- An integer in decimal, or the word for infinity where it is too long. -/
def looseInt (n : Int) : String :=
  (Numeral.decimal? n).getD (if 0 < n then "Infinity" else "-Infinity")

mutual

/-- The loose text of a value: items are joined with commas, a null among them is empty, and a map has no
text of its own. A set or a record with an integer that is too long to be written has no text at all; it is empty
here, and what is raised instead stands with the operations that raise. -/
def looseText : Value → String
  | .null => "null"
  | .bool b => if b then "true" else "false"
  | .int n => looseInt n
  | .float x => x.text
  | .str s => s
  | .list items => ",".intercalate (looseItems items)
  | .tuple items => ",".intercalate (looseItems items)
  | .map _ => "[object Object]"
  | v => v.text?.getD ""

def looseItems : List Value → List String
  | [] => []
  | .null :: items => "" :: looseItems items
  | item :: items => looseText item :: looseItems items

end

/-- The integer at the start of a text: a sign, then hexadecimal digits after `0x`, or decimal digits that
are not too many. -/
def readInt? (cs : List Char) : Option Int :=
  let (negative, rest) := Numeral.takeSign (Text.skipBlanks cs)
  if rest.take 2 = ['0', 'x'] ∨ rest.take 2 = ['0', 'X'] then
    let digits := (rest.drop 2).takeWhile (Numeral.isDigitIn 16)
    if digits = [] then none else some (Numeral.signed negative (Numeral.ofDigitsIn 16 digits))
  else
    let digits := rest.takeWhile Char.isDigit
    if digits = [] ∨ Numeral.maxDigits < digits.length then none
    else some (Numeral.signed negative (Numeral.ofDigits digits))

def readFloat? (cs : List Char) : Option Double :=
  (Double.takeNumber? (Text.skipBlanks cs)).map (·.1)

/-- An integer as it is, or the one at the start of the loose text. -/
def toInt? : Value → Option Int
  | .int n => some n
  | v => readInt? v.looseText.toList

/-- A float as it is unless it is not a number, or the one at the start of the loose text. -/
def toDouble? : Value → Option Double
  | .float x => if x.isNaN then none else some x
  | v => readFloat? v.looseText.toList

/-- A count of seconds as a time. Noise below a thousandth of a millisecond is rounded away first. -/
def secondsToDateTime? (v : Value) : Option DateTime :=
  match v.toDouble? with
  | none => none
  | some x => DateTime.ofMillisDouble? (x.mulNat 1000).roundThousandths

def millisToDateTime? (v : Value) : Option DateTime :=
  match v.toDouble? with
  | none => none
  | some x => DateTime.ofMillisDouble? x

/-- An ISO 8601 text as a time; a value that counts as false has no text. -/
def isoToDateTime? (v : Value) : Option DateTime :=
  if v.isTruthy then DateTime.ofIso? v.looseText.toList else none

end Wireform.Value

namespace Wireform.DateTime

/-- Seconds since the epoch, as the nearest double. -/
def seconds (t : DateTime) : Double :=
  Double.nearest (t.millis < 0) t.millis.natAbs 1000

/-- The reasons why a number is no time in milliseconds: it is out of range, or too large to compare. -/
inductive MillisFault
  | beyondDouble
deriving DecidableEq

/-- A time from an optional number of milliseconds. An integer has to fit a double before it is looked
at. -/
def ofMillisValue? : Value → Except MillisFault (Option DateTime)
  | .int n =>
    if (Double.ofInt n).isFinite then .ok (ofMillis? n) else .error .beyondDouble
  | .float x => .ok (ofMillisDouble? x)
  | _ => .ok none

end Wireform.DateTime
