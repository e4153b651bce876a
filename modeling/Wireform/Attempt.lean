import Wireform.Coercion
import Wireform.Double.Literal
import Wireform.Schema.Basic

/-!
# Operations that raise

The lenient readers and the texts of messages once more, taken down to the operations that have no result for
some operands and raise a fault instead: the text of an integer and the integer of a text if there are too many
digits, the whole part of what is not finite, a time outside the calendar, a look-up under what can be no key,
the JSON text of what has none. Tests and handlers stand where the readers have them, and what no handler takes
goes on to the caller.
-/
namespace Wireform

inductive FaultKind
  | value
  | overflow
  | type
deriving DecidableEq

inductive Raised
  | operation (kind : FaultKind)
  | mismatch (m : Mismatch)

/-- A mismatch is a bad value, so a handler for bad values takes it. -/
def Raised.kind : Raised → FaultKind
  | operation kind => kind
  | mismatch _ => .value

abbrev Attempt (α : Type) := Except Raised α

namespace Attempt

variable {α : Type}

/-- An operation that raises where it has no result. -/
def raising (kind : FaultKind) : Option α → Attempt α
  | some a => .ok a
  | none => .error (.operation kind)

/-- A handler for some kinds of faults. -/
def handling (kinds : List FaultKind) (x instead : Attempt α) : Attempt α :=
  match x with
  | .ok a => .ok a
  | .error e => if e.kind ∈ kinds then instead else .error e

def decimal (n : Int) : Attempt String :=
  raising .value (Numeral.decimal? n)

def ofDigits (digits : List Char) : Attempt Nat :=
  raising .value (if Numeral.maxDigits < digits.length then none else some (Numeral.ofDigits digits))

def truncate : Double → Attempt Int
  | .nan => .error (.operation .value)
  | x => raising .overflow x.truncate?

/-- A look-up under a key raises if the key can be changed, whether or not anything is found. -/
def lookUp (key : Value) (found : Option α) : Attempt (Option α) :=
  if key.isKey then .ok found else .error (.operation .type)

/-! ### Texts -/

/-- A whole number that is shown without an exponent is made an integer first. -/
def numberText (x : Double) : Attempt String :=
  match x.toInt? with
  | some n =>
    if n.natAbs < Double.firstScientific then do
      let whole ← truncate x
      decimal whole
    else .ok x.written
  | none => .ok x.text

mutual

def looseText : Value → Attempt String
  | .null => .ok "null"
  | .bool b => .ok (if b then "true" else "false")
  | .int n => handling [.value] (decimal n) (.ok (if 0 < n then "Infinity" else "-Infinity"))
  | .float x => numberText x
  | .str s => .ok s
  | .list items => (looseItems items).map (",".intercalate ·)
  | .tuple items => (looseItems items).map (",".intercalate ·)
  | .map _ => .ok "[object Object]"
  | v => raising .value v.text?

def looseItems : List Value → Attempt (List String)
  | [] => .ok []
  | .null :: items => (looseItems items).map ("" :: ·)
  | item :: items => do
    let text ← looseText item
    let texts ← looseItems items
    return text :: texts

end

/-- The text that a key has in JSON; only some values are keys there. -/
def jsonKey : Value → Attempt String
  | .null => .ok "null"
  | .bool b => .ok (if b then "true" else "false")
  | .int n => decimal n
  | .float x => .ok x.json
  | .str s => .ok s
  | _ => .error (.operation .type)

mutual

def jsonText : Value → Attempt String
  | .null => .ok "null"
  | .bool b => .ok (if b then "true" else "false")
  | .int n => decimal n
  | .float x => .ok x.json
  | .str s => .ok (Text.jsonString s)
  | .list items => (jsonItems items).map (Value.bracketed "[" "]")
  | .tuple items => (jsonItems items).map (Value.bracketed "[" "]")
  | .map entries => (jsonEntries entries).map (Value.bracketed "\x7b" "\x7d")
  | v => (raising .value v.text?).map Text.jsonString

def jsonItems : List Value → Attempt (List String)
  | [] => .ok []
  | item :: items => do
    let part ← jsonText item
    let parts ← jsonItems items
    return part :: parts

def jsonEntries : List (Value × Value) → Attempt (List String)
  | [] => .ok []
  | (key, value) :: entries => do
    let keyPart ← jsonKey key
    let part ← jsonText value
    let parts ← jsonEntries entries
    return (Text.jsonString keyPart ++ ": " ++ part) :: parts

end

/-- The text of a value for an error message. -/
def render (v : Value) : Attempt String :=
  handling [.type, .value] (jsonText v)
    (handling [.value] (raising .value v.written?) (.ok v.tooLargeText))

/-- Raises a mismatch, whose message is made before. -/
def fail (label : String) (v : Value) : Attempt α := do
  let _ ← render v
  .error (.mismatch ⟨label, v⟩)

/-! ### Numbers and times -/

def readInt (cs : List Char) : Attempt (Option Int) :=
  let (negative, rest) := Numeral.takeSign (Text.skipBlanks cs)
  if rest.take 2 = ['0', 'x'] ∨ rest.take 2 = ['0', 'X'] then
    let digits := (rest.drop 2).takeWhile (Numeral.isDigitIn 16)
    .ok (if digits = [] then none else some (Numeral.signed negative (Numeral.ofDigitsIn 16 digits)))
  else
    let digits := rest.takeWhile Char.isDigit
    if digits = [] then .ok none
    else handling [.value] ((ofDigits digits).map fun n => some (Numeral.signed negative n)) (.ok none)

def toInt : Value → Attempt (Option Int)
  | .int n => .ok (some n)
  | v => do
    let text ← looseText v
    readInt text.toList

def toDouble : Value → Attempt (Option Double)
  | .float x => .ok (if x.isNaN then none else some x)
  | v => (looseText v).map fun text => Value.readFloat? text.toList

/-- The number at the start of a text, which is made a double as a text of its own. -/
def readFloat (cs : List Char) : Attempt (Option Double) :=
  match Double.numberPattern.group? (Text.skipBlanks cs) with
  | none => .ok none
  | some found => (raising .value (Double.ofText? found)).map some

/-- The most milliseconds that a time may lie before or after the epoch. -/
def maxMillis : Nat := 8640000000000000

/-- A time from an optional number of milliseconds. -/
def ofMillis : Option Double → Attempt (Option DateTime)
  | none => .ok none
  | some x =>
    if !x.isFinite || !x.absLe (Double.nearest false maxMillis 1) then .ok none
    else
      handling [.overflow]
        (do
          let millis ← truncate x
          let t ← raising .overflow (DateTime.ofMillis? millis)
          return some t)
        (.ok none)

/-- An integer as a double; there is none beyond the largest. -/
def asDouble (n : Int) : Attempt Double :=
  raising .overflow (if (Double.ofInt n).isFinite then some (Double.ofInt n) else none)

/-- A time from a number of milliseconds. The tests for what is no finite number look at an integer as a
double, and then its size is compared as it is. -/
def ofMillisNumber : Value → Attempt (Option DateTime)
  | .int n => do
    let x ← asDouble n
    if !x.isFinite || maxMillis < n.natAbs then .ok none
    else handling [.overflow] ((raising .overflow (DateTime.ofMillis? n)).map some) (.ok none)
  | .float x => ofMillis (some x)
  | _ => .ok none

def secondsToDateTime (v : Value) : Attempt (Option DateTime) := do
  let seconds ← toDouble v
  ofMillis (seconds.map fun x => (x.mulNat 1000).roundThousandths)

def millisToDateTime (v : Value) : Attempt (Option DateTime) := do
  let millis ← toDouble v
  ofMillis millis

def ofIso (cs : List Char) : Attempt (Option DateTime) :=
  handling [.value, .overflow]
    (do
      let t ← raising .value (DateTime.readIso? cs)
      let utc ← raising .overflow t.toUtc?
      return some utc.floorMillis)
    (.ok none)

def isoToDateTime (v : Value) : Attempt (Option DateTime) := do
  let text ← if v.isTruthy then looseText v else .ok ""
  ofIso text.toList

end Attempt
end Wireform
