import Wireform.Log.Record
import Wireform.Value.Text

/-!
# Lines of a log

The two forms in which records are written: a plain line, and a JSON object on one line in ASCII alone, its
fields in the order of their names.

A message may be a template with places for arguments: `%s` for the plain text of a value and `%d` for a
whole number; `%%` is a percent sign. Every place takes one argument and every argument needs a place. A
message without arguments is taken as it is.
-/
namespace Wireform.Log

inductive Format
  | plain
  | json
deriving DecidableEq

def FailureKind.name : FailureKind → String
  | value => "ValueError"
  | key => "KeyError"
  | config => "safe_portals.domain.errors.ConfigError"

/-- The text that a failure shows after its name: a missing key is quoted. -/
def Failure.detail (f : Failure) : String :=
  match f.kind with
  | .key => Text.quote f.text
  | _ => f.text

def Failure.written (f : Failure) : String :=
  if f.detail = "" then f.kind.name else f.kind.name ++ ": " ++ f.detail

/-- The texts that stand in a JSON object. -/
structure Entry where
  failure : Option String
  level : String
  logger : String
  message : String
  timestamp : String
deriving DecidableEq

namespace Entry

/-- The fields of the object, in the order of their names. -/
def fields (e : Entry) : List (String × String) :=
  (e.failure.map fun text => ("exception", text)).toList ++
    [("level", e.level), ("logger", e.logger), ("message", e.message), ("timestamp", e.timestamp)]

def jsonField (name text : String) : String :=
  Text.asciiJsonString name ++ ": " ++ Text.asciiJsonString text

def json (e : Entry) : String :=
  "\x7b" ++ ", ".intercalate (e.fields.map fun f => jsonField f.1 f.2) ++ "\x7d"

end Entry

namespace Record

/-- A record as a plain line; a failure follows on a line of its own. -/
def plain (r : Record) : String :=
  r.logger ++ ": " ++ r.message ++
    match r.failure with
    | none => ""
    | some f => "\n" ++ f.written

/-- A record at a time of the clock, as the texts that JSON shows of it. -/
def entry (clock : String) (r : Record) : Entry where
  failure := r.failure.map Failure.written
  level := levelName r.level
  logger := r.logger
  message := r.message
  timestamp := clock

/-- A record as a line of a log, with the break at its end. -/
def line (format : Format) (clock : String) (r : Record) : String :=
  match format with
  | .plain => r.plain ++ "\n"
  | .json => (r.entry clock).json ++ "\n"

end Record

/-! ### Message templates -/

/-- A number in a place for whole numbers; a float loses its fraction there. -/
def wholeText? : Value → Option String
  | .bool b => some (if b then "1" else "0")
  | .int n => Numeral.decimal? n
  | .float x => x.truncate?.bind Numeral.decimal?
  | _ => none

/-- A template with its places filled in order, and the arguments that are left. -/
def fillPlaces? : List Char → List Value → Option (List Char × List Value)
  | [], args => some ([], args)
  | '%' :: '%' :: cs, args => do
    let (out, rest) ← fillPlaces? cs args
    return ('%' :: out, rest)
  | '%' :: 's' :: cs, v :: args => do
    let part ← v.text?
    let (out, rest) ← fillPlaces? cs args
    return (part.toList ++ out, rest)
  | '%' :: 'd' :: cs, v :: args => do
    let part ← wholeText? v
    let (out, rest) ← fillPlaces? cs args
    return (part.toList ++ out, rest)
  | '%' :: _, _ => none
  | c :: cs, args => do
    let (out, rest) ← fillPlaces? cs args
    return (c :: out, rest)

/-- Arguments that need no place: a single map that is not empty, since it could be asked for by key. -/
def needNoPlace : List Value → Bool
  | [.map (_ :: _)] => true
  | _ => false

/-- The message of a template and its arguments. -/
def message? (template : String) (args : List Value) : Option String :=
  if args.isEmpty then some template
  else
    match fillPlaces? template.toList args with
    | none => none
    | some (out, rest) =>
      if rest.isEmpty || needNoPlace args then some (String.ofList out) else none

end Wireform.Log
