import Wireform.Numeral

/-!
# Tags

What a node of a document is taken for. A scalar without a tag and without quotes gets one from its text:
null, a truth value, a number, a time, a merge mark, a value mark, or else a text.
-/
namespace Wireform.Yaml

inductive Tag
  | null
  | bool
  | int
  | float
  | binary
  | timestamp
  | omap
  | pairs
  | set
  | str
  | seq
  | map
  | merge
  | value
  | unknown
deriving DecidableEq

namespace Tag

/-- The tags of the language-independent types, by the last part of their names. -/
def named : List (String × Tag) :=
  [("null", null), ("bool", bool), ("int", int), ("float", float), ("binary", binary),
    ("timestamp", timestamp), ("omap", omap), ("pairs", pairs), ("set", set), ("str", str),
    ("seq", seq), ("map", map), ("merge", merge), ("value", value)]

def standardStart : String := "tag:yaml.org,2002:"

def ofName (name : List Char) : Tag :=
  let start := standardStart.toList
  if start.isPrefixOf name then
    (named.lookup (String.ofList (name.drop start.length))).getD unknown
  else unknown

/-! ## Recognizing plain scalars -/

def spellings (word : String) : List String :=
  [word, word.capitalize, word.toUpper]

/-- The words for truth values. -/
def truthWords : List (String × Bool) :=
  [("yes", true), ("no", false), ("true", true), ("false", false), ("on", true), ("off", false)]

def isTruth (s : String) : Bool :=
  truthWords.any fun w => (spellings w.1).contains s

def isNull (s : String) : Bool :=
  s == "" || s == "~" || (spellings "null").contains s

def isSpacedDigit (c : Char) : Bool :=
  c.isDigit || c == '_'

/-- One or more groups of a colon and one or two digits below sixty, and what follows them. -/
def sixties : Nat → List Char → Option (List Char)
  | 0, _ => none
  | more + 1, cs =>
    match cs with
    | ':' :: rest =>
      let digits := rest.takeWhile Char.isDigit
      let fits : Bool :=
        match digits with
        | [_] => true
        | [a, _] => a.toNat < 54
        | _ => false
      if fits then
        let rest := rest.drop digits.length
        if rest.head? = some ':' then sixties more rest else some rest
      else none
    | _ => none

/-- A number of base ten or two, eight, sixteen or sixty by its form. -/
def isInt (cs : List Char) : Bool :=
  let rest := (Numeral.takeSign cs).2
  match rest with
  | '0' :: 'b' :: digits => !digits.isEmpty && digits.all fun c => c == '0' || c == '1' || c == '_'
  | '0' :: 'x' :: digits => !digits.isEmpty && digits.all fun c => Numeral.isDigitIn 16 c || c == '_'
  | '0' :: digits => digits.all fun c => Numeral.isDigitIn 8 c || c == '_'
  | c :: digits =>
    c.isDigit &&
      (match digits.dropWhile isSpacedDigit with
        | [] => true
        | rest => sixties (rest.length + 1) rest == some [])
  | [] => false

def isExponent : List Char → Bool
  | [] => true
  | e :: sign :: digits =>
    (e == 'e' || e == 'E') && (sign == '+' || sign == '-') && !digits.isEmpty && digits.all Char.isDigit
  | _ => false

/-- A number with a point, an infinity, or the mark for what is no number. -/
def isFloat (cs : List Char) : Bool :=
  let rest := (Numeral.takeSign cs).2
  let isSigned := rest.length < cs.length
  match rest with
  | '.' :: after =>
    (spellings "inf").contains (String.ofList after) ||
      (!isSigned && ["nan", "NaN", "NAN"].contains (String.ofList after)) ||
      (!isSigned && (after.headD ' ').isDigit && isExponent (after.dropWhile isSpacedDigit))
  | c :: _ =>
    c.isDigit &&
      (match rest.dropWhile isSpacedDigit with
        | '.' :: after => isExponent (after.dropWhile isSpacedDigit)
        | after =>
          match sixties (after.length + 1) after with
          | some ('.' :: fraction) => fraction.all isSpacedDigit
          | _ => false)
  | [] => false

end Tag

/-- A text without the line feed at its end, if there is one. -/
def dropFinalBreak (cs : List Char) : List Char :=
  if cs.getLast? = some '\n' then cs.dropLast else cs

structure TimeFields where
  year : Nat
  month : Nat
  day : Nat
  /-- Hour, minute, second and the digits of a fraction. -/
  clock : Option (Nat × Nat × Nat × List Char)
  /-- Minutes east of UTC. -/
  zone : Option Int
  /-- Whether month and day have two digits each. -/
  isPadded : Bool

/-- One or two digits, the number of them, and what follows. -/
def takeShort? (cs : List Char) : Option (Nat × Nat × List Char) :=
  let digits := (cs.take 2).takeWhile Char.isDigit
  if digits.isEmpty then none
  else some (Numeral.ofDigits digits, digits.length, cs.drop digits.length)

def takeChar? (c : Char) : List Char → Option (List Char)
  | d :: cs => if c = d then some cs else none
  | [] => none

def takeTwo? (cs : List Char) : Option (Nat × List Char) := do
  let (n, count, rest) ← takeShort? cs
  if count = 2 then some (n, rest) else none

def isGap (c : Char) : Bool := c == ' ' || c == '\t'

/-- The zone at the end of a time, with blanks in front of it. -/
def readZone? (cs : List Char) : Option (Option Int) :=
  if cs.isEmpty then some none
  else
    match cs.dropWhile isGap with
    | ['Z'] => some (some 0)
    | sign :: rest =>
      if sign == '+' || sign == '-' then do
        let (hours, _, rest) ← takeShort? rest
        let minutes ←
          match rest with
          | [] => some 0
          | ':' :: rest => (takeTwo? rest).bind fun (n, rest) => if rest.isEmpty then some n else none
          | _ => none
        return some (Numeral.signed (sign == '-') (hours * 60 + minutes))
      else none
    | [] => none

/-- The time of day and zone after a date, with a letter or blanks in front. -/
def readClock? (cs : List Char) : Option ((Nat × Nat × Nat × List Char) × Option Int) := do
  let rest ←
    match cs with
    | 'T' :: rest => some rest
    | 't' :: rest => some rest
    | cs => if isGap (cs.headD 'x') then some (cs.dropWhile isGap) else none
  let (hour, _, rest) ← takeShort? rest
  let (minute, rest) ← takeTwo? (← takeChar? ':' rest)
  let (second, rest) ← takeTwo? (← takeChar? ':' rest)
  let (fraction, rest) :=
    match rest with
    | '.' :: rest => (rest.takeWhile Char.isDigit, rest.dropWhile Char.isDigit)
    | rest => ([], rest)
  return ((hour, minute, second, fraction), ← readZone? rest)

def TimeFields.read? (cs : List Char) : Option TimeFields := do
  let year := cs.take 4
  if year.length ≠ 4 ∨ !year.all Char.isDigit then none
  let (month, monthDigits, rest) ← takeShort? (← takeChar? '-' (cs.drop 4))
  let (day, dayDigits, rest) ← takeShort? (← takeChar? '-' rest)
  let isPadded := monthDigits == 2 && dayDigits == 2
  if rest.isEmpty then return ⟨Numeral.ofDigits year, month, day, none, none, isPadded⟩
  let (clock, zone) ← readClock? rest
  return ⟨Numeral.ofDigits year, month, day, some clock, zone, isPadded⟩

namespace Tag

/-- A time that is recognized without a tag: a date alone has to be padded. -/
def isTime (cs : List Char) : Bool :=
  match TimeFields.read? cs with
  | some t => t.isPadded || t.clock.isSome
  | none => false

/-- The tag that a text is recognized by. -/
def ofText (cs : List Char) : Tag :=
  let s := String.ofList cs
  if isTruth s then bool
  else if isFloat cs then float
  else if isInt cs then int
  else if s == "<<" then merge
  else if isNull s then null
  else if isTime cs then timestamp
  else if s == "=" then value
  else str

/-- The tag of a scalar that is recognized by its text. A line feed at the end does not count, unless it is
all of the text. -/
def ofPlain (cs : List Char) : Tag :=
  if cs = ['\n'] then str else ofText (dropFinalBreak cs)

end Tag
end Wireform.Yaml
