import Wireform.Text.Character

/-!
# Quoted text

A text between quotation marks, with backslash escapes for the mark, the backslash, three line
characters and every character without a visible form. Two ways of writing a text as a JSON string, besides:
both escape the quotation mark, the backslash and the controls; the ASCII way also writes every character from
U+007F on as one or two UTF-16 units.
-/
namespace Wireform.Text

/-- Hexadecimal digits in lower case, with zeros in front up to the given width. -/
def hexPadded (width n : Nat) : List Char :=
  let digits := Nat.toDigits 16 n
  List.replicate (width - digits.length) '0' ++ digits

/-- Apostrophes, unless the text holds one and no double quotation mark. -/
def quotationMark (cs : List Char) : Char :=
  if cs.contains '\x27' && !cs.contains '\x22' then '\x22' else '\x27'

/-- How one character is written between two marks. -/
def quoteChar (mark c : Char) : List Char :=
  if c == mark || c == '\\' then ['\\', c]
  else if c == '\n' then ['\\', 'n']
  else if c == '\r' then ['\\', 'r']
  else if c == '\t' then ['\\', 't']
  else if isPrintable c then [c]
  else if c.toNat < 0x100 then '\\' :: 'x' :: hexPadded 2 c.toNat
  else if c.toNat < 0x10000 then '\\' :: 'u' :: hexPadded 4 c.toNat
  else '\\' :: 'U' :: hexPadded 8 c.toNat

def quote (s : String) : String :=
  let cs := s.toList
  let mark := quotationMark cs
  String.ofList (mark :: cs.flatMap (quoteChar mark) ++ [mark])

def quoteList (items : List String) : String :=
  "[" ++ ", ".intercalate (items.map quote) ++ "]"

/-- How one byte is written between two marks: like a character, but everything past ASCII by number. -/
def quoteByte (mark : Char) (b : UInt8) : List Char :=
  if b.toNat < 0x7f then quoteChar mark (Char.ofNat b.toNat)
  else '\\' :: 'x' :: hexPadded 2 b.toNat

/-- A run of bytes, marked as such by the letter in front of its quotation mark. -/
def quoteBytes (bytes : List UInt8) : String :=
  let mark := quotationMark (bytes.map fun b => Char.ofNat b.toNat)
  String.ofList ('b' :: mark :: bytes.flatMap (quoteByte mark) ++ [mark])

/-! ### JSON string literals -/

/-- One UTF-16 unit as an escape. -/
def unitEscape (n : Nat) : List Char :=
  '\\' :: 'u' :: hexPadded 4 n

/-- A character as the escapes of its UTF-16 units. -/
def unitEscapes (c : Char) : List Char :=
  let n := c.toNat
  if n < 0x10000 then unitEscape n
  else unitEscape (0xd800 + (n - 0x10000) / 0x400) ++ unitEscape (0xdc00 + (n - 0x10000) % 0x400)

def jsonChar (ascii : Bool) (c : Char) : List Char :=
  if c == '\x22' || c == '\\' then ['\\', c]
  else if c == '\n' then ['\\', 'n']
  else if c == '\r' then ['\\', 'r']
  else if c == '\t' then ['\\', 't']
  else if c == '\x08' then ['\\', 'b']
  else if c == '\x0c' then ['\\', 'f']
  else if c.toNat < 0x20 then unitEscape c.toNat
  else if ascii && 0x7f ≤ c.toNat then unitEscapes c
  else [c]

/-- The JSON string literal of a text, all characters from the space on kept as they are. -/
def jsonString (s : String) : String :=
  String.ofList ('\x22' :: s.toList.flatMap (jsonChar false) ++ ['\x22'])

/-- The JSON string literal of a text in ASCII alone. -/
def asciiJsonString (s : String) : String :=
  String.ofList ('\x22' :: s.toList.flatMap (jsonChar true) ++ ['\x22'])

/-- A list of texts as a JSON array in ASCII alone. -/
def asciiJsonList (items : List String) : String :=
  "[" ++ ", ".intercalate (items.map asciiJsonString) ++ "]"

end Wireform.Text
