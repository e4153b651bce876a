import Wireform.DateTime.Text
import Wireform.Double.Decimal
import Wireform.Text.Quoted
import Wireform.Value.Basic

/-!
# Texts of values

Two texts of a value, and the choice between them for error messages. The JSON text fails on a map with a
key that is neither text, number nor null; the written form knows every value; both fail on an integer
with too many digits anywhere inside.
-/
namespace Wireform.Value

/-- Texts between marks, with commas. -/
def bracketed (opening closing : String) (parts : List String) : String :=
  opening ++ ", ".intercalate parts ++ closing

/-- A single item is followed by a comma. -/
def tupleText : List String → String
  | [part] => "(" ++ part ++ ",)"
  | parts => bracketed "(" ")" parts

def setText : List String → String
  | [] => "set()"
  | parts => bracketed "\x7b" "\x7d" parts

mutual

/-- The written form of a value, from which its type can be seen. -/
def written? : Value → Option String
  | .null => some "None"
  | .bool b => some (if b then "True" else "False")
  | .int n => Numeral.decimal? n
  | .float x => some x.written
  | .str s => some (Text.quote s)
  | .list items => (writtenItems? items).map (bracketed "[" "]")
  | .tuple items => (writtenItems? items).map tupleText
  | .map entries => (writtenEntries? entries).map (bracketed "\x7b" "\x7d")
  | .datetime t => some t.written
  | .day ordinal => some (Calendar.civil ordinal).written
  | .bytes bs => some (Text.quoteBytes bs)
  | .set items => (writtenItems? items).map setText
  | .record attributes => (writtenAttributes? attributes).map (bracketed "namespace(" ")")

def writtenItems? : List Value → Option (List String)
  | [] => some []
  | item :: items => do
    let part ← written? item
    let parts ← writtenItems? items
    return part :: parts

def writtenEntries? : List (Value × Value) → Option (List String)
  | [] => some []
  | (key, value) :: entries => do
    let keyPart ← written? key
    let part ← written? value
    let parts ← writtenEntries? entries
    return (keyPart ++ ": " ++ part) :: parts

def writtenAttributes? : List (String × Value) → Option (List String)
  | [] => some []
  | (name, value) :: attributes => do
    let part ← written? value
    let parts ← writtenAttributes? attributes
    return (name ++ "=" ++ part) :: parts

end

/-- The plain text of a value: texts and times as they are read, all else in written form. -/
def text? : Value → Option String
  | .str s => some s
  | .datetime t => some t.text
  | .day ordinal => some (String.ofList (Calendar.civil ordinal).text)
  | v => v.written?

/-- The text that a key has in JSON, where there is one. -/
def jsonKey? : Value → Option String
  | .null => some "null"
  | .bool b => some (if b then "true" else "false")
  | .int n => Numeral.decimal? n
  | .float x => some x.json
  | .str s => some s
  | _ => none

mutual

/-- The JSON text of a value. What JSON has no form for is a string of its plain text. -/
def json? : Value → Option String
  | .null => some "null"
  | .bool b => some (if b then "true" else "false")
  | .int n => Numeral.decimal? n
  | .float x => some x.json
  | .str s => some (Text.jsonString s)
  | .list items => (jsonItems? items).map (bracketed "[" "]")
  | .tuple items => (jsonItems? items).map (bracketed "[" "]")
  | .map entries => (jsonEntries? entries).map (bracketed "\x7b" "\x7d")
  | v => v.text?.map Text.jsonString

def jsonItems? : List Value → Option (List String)
  | [] => some []
  | item :: items => do
    let part ← json? item
    let parts ← jsonItems? items
    return part :: parts

def jsonEntries? : List (Value × Value) → Option (List String)
  | [] => some []
  | (key, value) :: entries => do
    let keyPart ← jsonKey? key
    let part ← json? value
    let parts ← jsonEntries? entries
    return (Text.jsonString keyPart ++ ": " ++ part) :: parts

end

/-- The text that stands for a value with an integer too long to write. -/
def tooLargeText (v : Value) : String :=
  "<" ++ v.typeName ++ " too large to render>"

/-- The text of a value for an error message: JSON where possible, else the written form. -/
def render (v : Value) : String :=
  match v.json? with
  | some text => text
  | none => v.written?.getD v.tooLargeText

end Wireform.Value
