import Wireform.Value.Basic
import Wireform.Text.Character
import Wireform.Value.Text

/-!
# Fields of documents

Documents are maps whose fields have simple types. A field takes more forms than its type suggests, so
that a text from the environment does as well as a number from a file. What does not fit is reported as a
complaint, with the place where it was found.
-/
namespace Wireform.Document

inductive Cause
  | missing
  | notInt
  | unreadableInt
  /-- An integer with too many digits, or a float beyond 64 bits. -/
  | oversizedInt
  | fractionalInt
  | notFinite
  | notBool
  | unreadableBool
  | notText
  /-- Bytes that are no text in UTF-8. -/
  | unreadableText
  | notMap
  | notSection
  /-- A value that is refused, with the reason. -/
  | refused (reason : String)
deriving DecidableEq

/-- One step from a document to a part of it. -/
inductive Key
  | name (s : String)
  | number (n : Int)
deriving DecidableEq

structure Complaint where
  cause : Cause
  place : List Key
deriving DecidableEq

/-- The range of signed numbers of 64 bits. -/
def inWord (n : Int) : Bool :=
  -(2 ^ 63) ≤ n && n < 2 ^ 63

/-- The integers that a float may stand for. The least number of 64 bits is not among them. -/
def inFloatWord (n : Int) : Bool :=
  -(2 ^ 63) < n && n < 2 ^ 63

inductive IntText
  | value (n : Int)
  | tooLong
  | malformed
deriving DecidableEq

/-- A plain integer text: an optional minus sign and digits without a superfluous zero in front. If there
are too many of them, the sign counted, what follows does not matter. -/
def plainInt (cs : List Char) : IntText :=
  let sign := cs.takeWhile (· == '-') |>.take 1
  let rest := cs.drop sign.length
  let digits := rest.takeWhile Char.isDigit
  if digits = [] then .malformed
  else if digits.head? = some '0' ∧ 1 < digits.length then .malformed
  else if Numeral.maxDigits < sign.length + digits.length then .tooLong
  else if rest.length = digits.length then
    .value (Numeral.signed (!sign.isEmpty) (Numeral.ofDigits digits))
  else .malformed

/-- The text after zeros at its start, which may have underscores between them. Digits or a minus sign may
follow; the last zero stays if nothing but a point follows. -/
def dropLeadingZeros? : List Char → Option (List Char)
  | '0' :: rest => go '0' rest
  | c :: rest => if c.isDigit then some (c :: rest) else none
  | [] => none
where
  go (last : Char) : List Char → Option (List Char)
    | [] => some [last]
    | c :: rest =>
      if c == '0' || c == '_' then go c rest
      else if c.isDigit || c == '-' then some (c :: rest)
      else if c == '.' then some (last :: c :: rest)
      else none

/-- The text before a point that nothing but zeros follows. -/
def dropZeroFraction (cs : List Char) : List Char :=
  let fraction := (cs.dropWhile (· != '.')).drop 1
  if fraction ≠ [] ∧ fraction.all (· == '0') then cs.takeWhile (· != '.') else cs

/-- Whether two underscores stand side by side. -/
def hasDoubleUnderscore : List Char → Bool
  | '_' :: '_' :: _ => true
  | _ :: rest => hasDoubleUnderscore rest
  | [] => false

/-- The text without underscores, if all of them stand singly between other characters. -/
def dropUnderscores? (cs : List Char) : Option (List Char) :=
  if cs.head? = some '_' ∨ cs.getLast? = some '_' ∨ hasDoubleUnderscore cs then none
  else some (cs.filter (· != '_'))

/-- A text without the ornaments that an integer may have behind its minus sign: zeros in front, a zero
fraction, and underscores between digits. -/
def cleanDigits? (cs : List Char) : Option (List Char) :=
  (dropLeadingZeros? cs).bind fun rest => dropUnderscores? (dropZeroFraction rest)

/-- A text without the ornaments that an integer may have, white space around it and a plus sign among
them. -/
def cleanInt? (cs : List Char) : Option (List Char) :=
  match Text.trimWhiteSpace cs with
  | '+' :: '-' :: _ => none
  | '+' :: rest => cleanDigits? rest
  | '-' :: rest => (cleanDigits? rest).map ('-' :: ·)
  | rest => cleanDigits? rest

/-- Reads an integer text, as it stands or else without its ornaments. Only a text that is too long as it
stands is reported as such. -/
def intText (cs : List Char) : IntText :=
  match plainInt cs with
  | .malformed =>
    match (cleanInt? cs).map plainInt with
    | some (.value n) => .value n
    | _ => .malformed
  | result => result

def textOfBytes? (bs : List UInt8) : Option String :=
  String.fromUTF8? ⟨bs.toArray⟩

def intOfText (text : Option String) : Except Cause Int :=
  match text.map fun s => intText s.toList with
  | some (.value n) => .ok n
  | some .tooLong => .error .oversizedInt
  | _ => .error .unreadableInt

def int : Value → Except Cause Int
  | .int n => .ok n
  | .bool b => .ok (if b then 1 else 0)
  | .float x =>
    if !x.isFinite then .error .notFinite
    else
      match x.toInt? with
      | none => .error .fractionalInt
      | some n => if inFloatWord n then .ok n else .error .oversizedInt
  | .str s => intOfText (some s)
  | .bytes bs => intOfText (textOfBytes? bs)
  | _ => .error .notInt

/-- The texts that are read as false and as true, capitals aside. -/
def boolTexts : List (String × Bool) :=
  [("0", false), ("off", false), ("f", false), ("false", false), ("n", false), ("no", false),
    ("1", true), ("on", true), ("t", true), ("true", true), ("y", true), ("yes", true)]

def boolOfText (text : Option String) : Except Cause Bool :=
  match text.bind fun s => boolTexts.lookup s.toLower with
  | some b => .ok b
  | none => .error .unreadableBool

def boolOfInt (n : Int) : Except Cause Bool :=
  if n = 0 then .ok false else if n = 1 then .ok true else .error .unreadableBool

def bool : Value → Except Cause Bool
  | .bool b => .ok b
  | .str s => boolOfText (some s)
  | .bytes bs => boolOfText (textOfBytes? bs)
  | .int n => if inWord n then boolOfInt n else .error .notBool
  | .float x =>
    match x.toInt? with
    | some n => if inFloatWord n then boolOfInt n else .error .notBool
    | none => .error .notBool
  | _ => .error .notBool

def text : Value → Except Cause String
  | .str s => .ok s
  | .bytes bs =>
    match textOfBytes? bs with
    | some s => .ok s
    | none => .error .unreadableText
  | _ => .error .notText

/-- The text that stands for a value with an integer too long to write. -/
def unprintable (v : Value) : String :=
  "<unprintable " ++ v.typeName ++ " object>"

/-- How a key that is no text is named in a complaint: small integers by number, all else in written
form. -/
def keyOf (v : Value) : Key :=
  match v with
  | .str s => .name s
  | .bool b => .number (if b then 1 else 0)
  | .int n => if inWord n then .number n else .name (v.written?.getD (unprintable v))
  | v => .name (v.written?.getD (unprintable v))

def badKeys (entries : List (Value × Value)) : List Value :=
  (entries.map (·.1)).filter fun key =>
    match key with
    | .str _ => false
    | _ => true

/-- The complaint about an entry whose key is no text. -/
def keyComplaint? (place : String) (e : Value × Value) : Option Complaint :=
  match text e.1 with
  | .ok _ => none
  | .error cause => some ⟨cause, [.name place, keyOf e.1, .name "[key]"]⟩

/-- An entry under its key as a text. -/
def named? (e : Value × Value) : Option (String × Value) :=
  match text e.1 with
  | .ok name => some (name, e.2)
  | .error _ => none

/-- The entries of a map under their keys as texts, or a complaint for every key that is none. Keys that
are the same text count as one. -/
def namedEntries (place : String) (entries : List (Value × Value)) :
    Except (List Complaint) (List (String × Value)) :=
  match entries.filterMap (keyComplaint? place) with
  | [] => .ok (Named.distinct (entries.filterMap named?))
  | complaints => .error complaints

end Wireform.Document
